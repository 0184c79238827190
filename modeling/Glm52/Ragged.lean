import Mathlib.Algebra.BigOperators.Group.List.Basic
import Mathlib.Algebra.GroupWithZero.Nat
import Mathlib.Data.List.Perm.Subperm
import Mathlib.Data.List.Nodup
import Mathlib.Data.List.SplitLengths

/-! # Ragged concatenations and the offsets into them

A list of blocks of different lengths, laid end to end, is addressed by a block
number and a slot within the block; the exclusive prefix sums of the block lengths
are the block starts (`getElem?_flatten_offset`).  `indexSelect` reads one row per
index and fails when an index is out of range.  An index that reads a list of
distinct labels back in full, each label once, is a permutation of the positions
(`perm_range_of_indexSelect`). -/
namespace Ragged

variable {α : Type}

/-- Inclusive prefix sums. -/
def cumsum (xs : List ℕ) : List ℕ :=
  (List.range xs.length).map (fun i => (xs.take (i + 1)).sum)

/-- `out = zeros_like(xs); out[1:] = cumsum(xs[:-1])`: the exclusive prefix sums. -/
def exclusiveSum (xs : List ℕ) : List ℕ := (0 :: cumsum xs.dropLast).take xs.length

/-- `torch.index_select(xs, 0, idx)`; an index out of range raises. -/
def indexSelect (xs : List α) (idx : List ℕ) : Option (List α) := idx.mapM (fun i => xs[i]?)

@[simp] theorem length_cumsum (xs : List ℕ) : (cumsum xs).length = xs.length := by simp [cumsum]

theorem getElem?_cumsum {xs : List ℕ} {i : ℕ} (hi : i < xs.length) :
    (cumsum xs)[i]? = some (xs.take (i + 1)).sum := by
  simp [cumsum, List.getElem?_map, List.getElem?_range hi]

/-- The last prefix sum, with the leading `0` of the empty list, is the total. -/
theorem getLast?_zero_cumsum (xs : List ℕ) : (0 :: cumsum xs).getLast? = some xs.sum := by
  rw [List.getLast?_eq_getElem?]
  cases xs with
  | nil => rfl
  | cons x xs =>
    have hi : xs.length < (x :: xs).length := by simp
    simpa using getElem?_cumsum hi

/-- **An exclusive prefix sum is the total length of the blocks before it.** -/
theorem getD_exclusiveSum {xs : List ℕ} {i : ℕ} (hi : i < xs.length) :
    (exclusiveSum xs).getD i 0 = (xs.take i).sum := by
  rw [exclusiveSum, List.getD_eq_getElem?_getD, List.getElem?_take_of_lt hi]
  cases i with
  | zero => simp
  | succ i =>
    have hdrop : i < xs.dropLast.length := by rw [List.length_dropLast]; omega
    rw [List.getElem?_cons_succ, getElem?_cumsum hdrop, Option.getD_some,
      List.dropLast_eq_take, List.take_take, Nat.min_eq_left (by omega)]

/-- **Block `i`'s slot `j` sits at its start plus `j` in the concatenation.** -/
theorem getElem?_flatten_offset {blocks : List (List α)} {i j : ℕ} {block : List α} {x : α}
    (hblock : blocks[i]? = some block) (hx : block[j]? = some x) :
    blocks.flatten[((blocks.take i).map List.length).sum + j]? = some x := by
  induction blocks generalizing i with
  | nil => simp at hblock
  | cons first rest ih =>
    cases i with
    | zero =>
      obtain rfl : first = block := by simpa using hblock
      obtain ⟨hj, -⟩ := List.getElem?_eq_some_iff.mp hx
      simpa [List.getElem?_append_left hj] using hx
    | succ i =>
      have hrest := ih (i := i) (by simpa using hblock)
      rw [List.flatten_cons, List.take_succ_cons, List.map_cons, List.sum_cons, Nat.add_assoc,
        List.getElem?_append_right (Nat.le_add_right _ _), Nat.add_sub_cancel_left]
      exact hrest

/-- A list of blocks, read back by block number. -/
theorem flatten_eq_flatMap_getD (blocks : List (List α)) :
    blocks.flatten = (List.range blocks.length).flatMap (fun q => blocks.getD q []) := by
  have hread : blocks = (List.range blocks.length).map (fun q => blocks.getD q []) :=
    List.ext_getElem (by simp) (fun i h _ => by simp [h])
  conv_lhs => rw [hread]
  rfl

/-- A loop that may fail succeeds when each of its steps does. -/
theorem mapM_eq_some {γ : Type} {f : α → Option γ} {xs : List α} {ys : List γ} :
    xs.mapM f = some ys ↔ xs.map f = ys.map some := by
  induction xs generalizing ys with
  | nil => cases ys <;> simp
  | cons x xs ih =>
    cases ys with
    | nil => simp [Option.bind_eq_some_iff]
    | cons y ys => simp [Option.bind_eq_some_iff, ← ih]

theorem indexSelect_eq_some {xs ys : List α} {idx : List ℕ} :
    indexSelect xs idx = some ys ↔ idx.map (fun i => xs[i]?) = ys.map some :=
  mapM_eq_some

/-- **An index that reads distinct labels back, all of them, is a permutation of
the positions**: in range, without repetition, and missing none. -/
theorem perm_range_of_indexSelect {xs ys : List α} {idx : List ℕ} (hys : ys.Nodup)
    (hlen : xs.length = ys.length) (h : indexSelect xs idx = some ys) :
    idx.Perm (List.range xs.length) := by
  rw [indexSelect_eq_some] at h
  have hnodup : idx.Nodup := by
    refine List.Nodup.of_map (fun i => xs[i]?) ?_
    rw [h]
    exact hys.map (fun a b hab => Option.some.inj hab)
  have hsub : idx ⊆ List.range xs.length := by
    intro i hi
    have hmem : xs[i]? ∈ ys.map some := h ▸ List.mem_map.mpr ⟨i, hi, rfl⟩
    obtain ⟨y, -, hy⟩ := List.mem_map.mp hmem
    obtain ⟨hlt, -⟩ := List.getElem?_eq_some_iff.mp hy.symm
    exact List.mem_range.mpr hlt
  refine (List.subperm_of_subset hnodup hsub).perm_of_length_le ?_
  have hcount : idx.length = ys.length := by simpa using congrArg List.length h
  rw [List.length_range, hcount, hlen]

/-- Reading a list by position, from more positions than it has. -/
theorem filterMap_range_getElem? {γ : Type} (xs : List α) (f : α → Option γ) {n : ℕ}
    (hn : xs.length ≤ n) :
    (List.range n).filterMap (fun i => xs[i]?.bind f) = xs.filterMap f := by
  induction xs generalizing n with
  | nil => simp
  | cons x xs ih =>
    obtain ⟨n, rfl⟩ := Nat.exists_eq_succ_of_ne_zero (show n ≠ 0 by simp at hn; omega)
    have htail := ih (n := n) (by simpa using hn)
    rw [List.range_succ_eq_map, List.filterMap_cons, List.filterMap_map, List.filterMap_cons]
    simp only [List.getElem?_cons_zero, Option.bind_some, Function.comp_def,
      List.getElem?_cons_succ, htail]

/-- A lane-wise choice keeps the chosen lanes, in order. -/
theorem filterMap_ite {γ : Type} (p : α → Prop) [DecidablePred p] (f : α → γ) (xs : List α) :
    xs.filterMap (fun x => if p x then some (f x) else none) =
      (xs.filter (fun x => p x)).map f := by
  induction xs with
  | nil => rfl
  | cons x xs ih =>
    by_cases hx : p x
    · simp [hx, ih]
    · simp [hx, ih]

/-- Tiles of `b` consecutive positions. -/
theorem range_mul (m b : ℕ) :
    List.range (m * b) = (List.range m).flatMap (fun i => (List.range b).map (i * b + ·)) := by
  induction m with
  | zero => simp
  | succ m ih =>
    rw [Nat.succ_mul, List.range_add, ih, List.range_succ, List.flatMap_append,
      List.flatMap_singleton]

/-- **Blocks of lanes**, the last one reaching beyond the end, where there is no item. -/
theorem filterMap_range_blocks {γ : Type} {item : ℕ → Option γ} {n m b : ℕ} (hn : n ≤ m * b)
    (hnone : ∀ c, n ≤ c → item c = none) :
    ((List.range m).map (· * b)).flatMap
        (fun start => (List.range b).filterMap (fun j => item (start + j))) =
      (List.range n).filterMap item := by
  obtain ⟨k, hk⟩ := Nat.exists_eq_add_of_le hn
  have hbeyond : (List.map (n + ·) (List.range k)).filterMap item = [] := by
    rw [List.filterMap_eq_nil_iff]
    intro c hc
    obtain ⟨i, -, rfl⟩ := List.mem_map.mp hc
    exact hnone _ (Nat.le_add_right n i)
  have hall : (List.range (m * b)).filterMap item = (List.range n).filterMap item := by
    rw [hk, List.range_add, List.filterMap_append, hbeyond, List.append_nil]
  rw [← hall, range_mul, List.filterMap_flatMap, List.flatMap_map]
  simp only [List.filterMap_map, Function.comp_def]

/-- Labels `0 .. n - 1` dealt out in blocks of the given lengths. -/
def labels (lens : List ℕ) : List (List ℕ) := lens.splitLengths (List.range lens.sum)

theorem flatten_labels (lens : List ℕ) : (labels lens).flatten = List.range lens.sum :=
  List.flatten_splitLengths _ _ (by simp)

theorem map_length_labels (lens : List ℕ) : (labels lens).map List.length = lens :=
  List.map_splitLengths_length _ _ (by simp)

/-! ### Consecutive intervals -/

/-- Intervals that start at `a`, follow one another and end at `b`. -/
def Consecutive : ℕ → ℕ → List (ℕ × ℕ) → Prop
  | a, b, [] => a = b
  | a, b, s :: rest => s.1 = a ∧ a ≤ s.2 ∧ Consecutive s.2 b rest

section Consecutive
variable {a b : ℕ} {intervals : List (ℕ × ℕ)}

theorem Consecutive.le (h : Consecutive a b intervals) : a ≤ b := by
  induction intervals generalizing a with
  | nil => exact Nat.le_of_eq h
  | cons s rest ih => exact le_trans h.2.1 (ih h.2.2)

theorem Consecutive.mem_bounds (h : Consecutive a b intervals) {s : ℕ × ℕ} (hs : s ∈ intervals) :
    a ≤ s.1 ∧ s.1 ≤ s.2 ∧ s.2 ≤ b := by
  induction intervals generalizing a with
  | nil => cases hs
  | cons first rest ih =>
    obtain ⟨rfl, hle, hrest⟩ := h
    rcases List.mem_cons.mp hs with rfl | hs
    · exact ⟨le_rfl, hle, hrest.le⟩
    · obtain ⟨hstart, hbounds⟩ := ih hrest hs
      exact ⟨le_trans hle hstart, hbounds⟩

/-- Consecutive intervals miss nothing between their ends. -/
theorem Consecutive.exists_mem (h : Consecutive a b intervals) {t : ℕ} (ha : a ≤ t) (hb : t < b) :
    ∃ s ∈ intervals, s.1 ≤ t ∧ t < s.2 := by
  induction intervals generalizing a with
  | nil =>
    obtain rfl : a = b := h
    omega
  | cons first rest ih =>
    obtain ⟨rfl, hle, hrest⟩ := h
    by_cases ht : t < first.2
    · exact ⟨first, List.mem_cons_self, ha, ht⟩
    · obtain ⟨s, hs, hbounds⟩ := ih hrest (not_lt.mp ht)
      exact ⟨s, List.mem_cons_of_mem _ hs, hbounds⟩

theorem Consecutive.map (h : Consecutive a b intervals) {f : ℕ → ℕ} (hf : Monotone f) :
    Consecutive (f a) (f b) (intervals.map (fun s => (f s.1, f s.2))) := by
  induction intervals generalizing a with
  | nil => exact congrArg f h
  | cons first rest ih =>
    obtain ⟨rfl, hle, hrest⟩ := h
    exact ⟨rfl, hf hle, ih hrest⟩

end Consecutive

end Ragged
