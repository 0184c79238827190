import Mathlib.Data.List.Sort
import Mathlib.Data.List.Nodup
import Mathlib.Order.Defs.LinearOrder
import Mathlib.Tactic.Tauto

/-! # Stable sorting by index

`argsort` lists the indices of a sequence of keys in sorted order, equal keys
in their original order; `gather` reads a sequence at a list of indices.  Array
programs compose the two: they sort indices by one key, reorder a second key by
the result, sort again, and compose the index lists.

`gather_argsort` says that reading a sequence at an `argsort` is sorting the
sequence together with its keys, so a chain of them is a chain of stable sorts
(`gather_argsort_argsort`), and two stable sorts in a row sort by the second
key with ties broken by the first (`pairwise_lex_insertionSort`).  The last
section is about cutting a sorted list to its first `k` entries: a sublist that
keeps those entries has the same cut (`take_filter_of_forall`). -/
namespace StableSort
variable {α β κ : Type}

/-! ### Reading by index -/

/-- The entries of `xs` at the indices `idx`; an index past the end reads `d`. -/
def gather (xs : List α) (d : α) (idx : List ℕ) : List α := idx.map (fun i => xs.getD i d)

@[simp] theorem length_gather (xs : List α) (d : α) (idx : List ℕ) :
    (gather xs d idx).length = idx.length := by simp [gather]

theorem gather_take (xs : List α) (d : α) (idx : List ℕ) (k : ℕ) :
    gather xs d (idx.take k) = (gather xs d idx).take k := by
  simp [gather, List.map_take]

theorem gather_gather (xs : List α) (d : α) (i₁ i₂ : List ℕ) (h : ∀ i ∈ i₂, i < i₁.length) :
    gather (gather xs d i₁) d i₂ = gather xs d (gather i₁ 0 i₂) := by
  simp only [gather, List.map_map]
  refine List.map_congr_left (fun i hi => ?_)
  have hlt := h i hi
  simp [hlt]

/-! ### Sorting indices -/

/-- The indices of `keys` in the order of `r`, equal keys in their original
order. -/
def argsort (r : κ → κ → Prop) [DecidableRel r] (keys : List κ) : List ℕ :=
  (keys.zipIdx.insertionSort (fun a b => r a.1 b.1)).map Prod.snd

variable (r : κ → κ → Prop) [DecidableRel r]

theorem argsort_perm (keys : List κ) : (argsort r keys).Perm (List.range keys.length) := by
  have h := (List.perm_insertionSort (fun a b : κ × ℕ => r a.1 b.1) keys.zipIdx).map Prod.snd
  rwa [List.zipIdx_map_snd, ← List.range_eq_range'] at h

theorem lt_of_mem_argsort {keys : List κ} {i : ℕ} (h : i ∈ argsort r keys) :
    i < keys.length := by
  simpa using (argsort_perm r keys).mem_iff.mp h

/-- Reading a decorated sequence at the sorted indices of its keys sorts the
sequence: decorate, sort, project. -/
theorem gather_argsort (w : List α) (key : α → κ) (f : α → β) (d : β) :
    gather (w.map f) d (argsort r (w.map key)) =
      (w.insertionSort (fun a b => r (key a) (key b))).map f := by
  have hkeys : (w.map key).zipIdx = w.zipIdx.map (fun p => (key p.1, p.2)) := by
    rw [List.zipIdx_map]
    rfl
  have hsort : argsort r (w.map key) =
      (w.zipIdx.insertionSort (fun a b => r (key a.1) (key b.1))).map Prod.snd := by
    unfold argsort
    rw [hkeys, ← List.map_insertionSort (fun a b : α × ℕ => r (key a.1) (key b.1))
      (fun a b : κ × ℕ => r a.1 b.1) (fun p : α × ℕ => (key p.1, p.2)) _
      (fun a _ b _ => Iff.rfl), List.map_map]
    rfl
  have hval : w.insertionSort (fun a b => r (key a) (key b)) =
      (w.zipIdx.insertionSort (fun a b => r (key a.1) (key b.1))).map Prod.fst := by
    rw [List.map_insertionSort (fun a b : α × ℕ => r (key a.1) (key b.1))
      (fun a b => r (key a) (key b)) Prod.fst _ (fun a _ b _ => Iff.rfl), List.zipIdx_map_fst]
  rw [hsort, hval, gather, List.map_map, List.map_map]
  refine List.map_congr_left (fun p hp => ?_)
  have hmem : p ∈ w.zipIdx := by simpa using hp
  obtain ⟨_, hlt, heq⟩ := List.mem_zipIdx hmem
  simp only [Nat.zero_add, Nat.sub_zero] at hlt heq
  simp [hlt, heq]

/-- **Two chained index sorts.**  Sorting the indices by `key₁`, reordering the
second keys by the result, sorting their indices, and composing the two index
lists reads any aligned sequence in the order of the two sorts. -/
theorem gather_argsort_argsort {κ₂ : Type} (r₂ : κ₂ → κ₂ → Prop) [DecidableRel r₂]
    (w : List α) (key₁ : α → κ) (key₂ : α → κ₂) (d₂ : κ₂) (f : α → β) (d : β) :
    gather (w.map f) d (gather (argsort r (w.map key₁)) 0
        (argsort r₂ (gather (w.map key₂) d₂ (argsort r (w.map key₁))))) =
      ((w.insertionSort (fun a b => r (key₁ a) (key₁ b))).insertionSort
        (fun a b => r₂ (key₂ a) (key₂ b))).map f := by
  rw [← gather_gather, gather_argsort, gather_argsort, gather_argsort]
  intro i hi
  have := lt_of_mem_argsort r₂ hi
  simpa using this

/-! ### Two stable sorts in a row -/

/-- Inserting `a` in front of a list it precedes in the first order keeps the
list sorted by the second order with ties in the first. -/
theorem pairwise_lex_orderedInsert {r₁ r₂ : α → α → Prop} [DecidableRel r₂] [Std.Total r₂]
    [IsTrans α r₂] (a : α) : ∀ l : List α, (∀ b ∈ l, r₁ a b) →
      l.Pairwise (fun x y => r₂ x y ∧ (r₂ y x → r₁ x y)) →
      (l.orderedInsert r₂ a).Pairwise (fun x y => r₂ x y ∧ (r₂ y x → r₁ x y))
  | [], _, _ => by simp
  | b :: l, hfirst, hl => by
      obtain ⟨hb, hl'⟩ := List.pairwise_cons.mp hl
      rw [List.orderedInsert_cons]
      split
      · rename_i hab
        refine List.pairwise_cons.mpr ⟨fun y hy => ⟨?_, fun _ => hfirst y hy⟩, hl⟩
        rcases List.mem_cons.mp hy with rfl | hy
        · exact hab
        · exact IsTrans.trans a b y hab (hb y hy).1
      · rename_i hab
        have hba : r₂ b a := (Std.Total.total a b).resolve_left hab
        refine List.pairwise_cons.mpr ⟨fun y hy => ?_,
          pairwise_lex_orderedInsert a l (fun c hc => hfirst c (List.mem_cons_of_mem _ hc)) hl'⟩
        rcases (List.mem_orderedInsert r₂).mp hy with rfl | hy
        · exact ⟨hba, fun h => absurd h hab⟩
        · exact hb y hy

/-- **A stable sort of a sorted list is lexicographic**: the second order
decides, and the first order breaks its ties. -/
theorem pairwise_lex_insertionSort {r₁ r₂ : α → α → Prop} [DecidableRel r₂] [Std.Total r₂]
    [IsTrans α r₂] : ∀ l : List α, l.Pairwise r₁ →
      (l.insertionSort r₂).Pairwise (fun x y => r₂ x y ∧ (r₂ y x → r₁ x y))
  | [], _ => by simp
  | a :: l, h => by
      obtain ⟨ha, hl⟩ := List.pairwise_cons.mp h
      exact pairwise_lex_orderedInsert a _
        (fun b hb => ha b ((List.mem_insertionSort r₂).mp hb)) (pairwise_lex_insertionSort l hl)

/-! ### Cutting to the first `k` -/

/-- A filter that keeps the first `k` entries has the same first `k` entries. -/
theorem take_filter_of_forall {p : α → Bool} {l : List α} {k : ℕ} (h : ∀ x ∈ l.take k, p x) :
    (l.filter p).take k = l.take k := by
  have hsplit : l.filter p = l.take k ++ (l.drop k).filter p := by
    conv_lhs => rw [← List.take_append_drop k l, List.filter_append, List.filter_eq_self.mpr h]
  rcases Nat.le_total k l.length with hk | hk
  · rw [hsplit, List.take_append_of_le_length (by simp [hk]), List.take_take, Nat.min_self]
  · rw [hsplit, List.drop_eq_nil_of_le hk, List.filter_nil, List.append_nil, List.take_take,
      Nat.min_self]

/-- An entry among the first `k` of a list is among the first `k` of any filter
that keeps it. -/
theorem mem_take_filter {p : α → Bool} {l : List α} {k : ℕ} {x : α} (hx : x ∈ l.take k)
    (hp : p x) : x ∈ (l.filter p).take k := by
  have hsplit : l.filter p = (l.take k).filter p ++ (l.drop k).filter p := by
    rw [← List.filter_append, List.take_append_drop]
  have hlen : ((l.take k).filter p).length ≤ k :=
    (List.length_filter_le _ _).trans (List.length_take_le _ _)
  rw [hsplit, List.take_append]
  exact List.mem_append_left _ (by
    rw [List.take_of_length_le hlen]
    exact List.mem_filter.mpr ⟨hx, hp⟩)

end StableSort
