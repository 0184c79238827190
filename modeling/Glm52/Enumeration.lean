import Mathlib.Data.List.Sort
import Mathlib.Algebra.BigOperators.Group.Finset.Basic
import Mathlib.Data.Finset.Range
import Mathlib.Order.Interval.Finset.Nat
import Mathlib.Algebra.GroupWithZero.Nat

/-! # Increasing enumerations of numbers

`Enumerates f P`: the function `f` lists the numbers with `P` in increasing order.  Where
exactly the first `n` of them are below a bound (`Cuts`), these are the numbers with `P`
below the bound (`Enumerates.map_range`) and `n` is their count (`Enumerates.eq_card`).
When every number belongs to one of `N` classes, the counts of the classes below a bound
add up to the bound (`sum_card_class`).

Enumerations and their cuts are compared digit by digit (`digits_lt_iff`). -/
namespace Enumeration

/-- `f` lists the numbers with `P` in increasing order. -/
structure Enumerates (f : ℕ → ℕ) (P : ℕ → Prop) : Prop where
  strictMono : StrictMono f
  iff_exists : ∀ p, P p ↔ ∃ l, f l = p

/-- The first `n` values of `f` are the ones below `g`. -/
def Cuts (f : ℕ → ℕ) (n g : ℕ) : Prop := ∀ l, l < n ↔ f l < g

variable {f : ℕ → ℕ} {P : ℕ → Prop} {n g : ℕ}

theorem Enumerates.mem_map_range (h : Enumerates f P) (hcut : Cuts f n g) {p : ℕ} :
    p ∈ (List.range n).map f ↔ p < g ∧ P p := by
  simp only [List.mem_map, List.mem_range]
  constructor
  · rintro ⟨l, hl, rfl⟩
    exact ⟨(hcut l).mp hl, (h.iff_exists _).mpr ⟨l, rfl⟩⟩
  · rintro ⟨hp, hP⟩
    obtain ⟨l, rfl⟩ := (h.iff_exists p).mp hP
    exact ⟨l, (hcut l).mpr hp, rfl⟩

/-- **Cut at a bound, an enumeration lists what satisfies `P` below it.** -/
theorem Enumerates.map_range [DecidablePred P] (h : Enumerates f P) (hcut : Cuts f n g) :
    (List.range n).map f = (List.range g).filter (fun p => P p) := by
  refine List.Pairwise.eq_of_mem_iff (r := (· < ·)) ?_ (List.pairwise_lt_range.filter _)
    (fun p => ?_)
  · exact List.pairwise_map.mpr (List.pairwise_lt_range.imp (fun hab => h.strictMono hab))
  · rw [h.mem_map_range hcut]
    simp

theorem Enumerates.eq_card [DecidablePred P] (h : Enumerates f P) (hcut : Cuts f n g) :
    n = ((Finset.range g).filter P).card := by
  have hlen : n = ((List.range n).map f).length := by simp
  rw [hlen, h.map_range hcut]
  rfl

/-- **Every number is in one class**: the counts of the classes add up. -/
theorem sum_card_class {N : ℕ} {cls : ℕ → ℕ} (hcls : ∀ p, cls p < N) (g : ℕ) :
    ((List.range N).map fun r => ((Finset.range g).filter (cls · = r)).card).sum = g := by
  have hmaps : Set.MapsTo cls (Finset.range g : Set ℕ) (Finset.range N : Set ℕ) :=
    fun p _ => by simpa using hcls p
  calc ((List.range N).map fun r => ((Finset.range g).filter (cls · = r)).card).sum
      = ∑ r ∈ Finset.range N, ((Finset.range g).filter (cls · = r)).card := by
        rw [← List.sum_toFinset _ List.nodup_range, List.toFinset_range]
    _ = (Finset.range g).card := (Finset.card_eq_sum_card_fiberwise hmaps).symm
    _ = g := Finset.card_range g

/-- The first digit of two. -/
theorem digits_div {M b : ℕ} (a : ℕ) (hb : b < M) : (a * M + b) / M = a := by
  rw [Nat.mul_comm, Nat.mul_add_div (by omega), Nat.div_eq_of_lt hb, Nat.add_zero]

/-- Numbers of two digits compare by the first digit, then by the second. -/
theorem digits_lt_iff {M a b q m : ℕ} (hb : b < M) (hm : m ≤ M) :
    a * M + b < q * M + m ↔ a < q ∨ a = q ∧ b < m := by
  rcases Nat.lt_trichotomy a q with h | rfl | h
  · have hround : (a + 1) * M ≤ q * M := Nat.mul_le_mul_right M h
    rw [Nat.succ_mul] at hround
    exact ⟨fun _ => Or.inl h, fun _ => by omega⟩
  · simp
  · have hround : (q + 1) * M ≤ a * M := Nat.mul_le_mul_right M h
    rw [Nat.succ_mul] at hround
    constructor
    · intro hlt
      omega
    · rintro (hlt | ⟨rfl, -⟩) <;> omega

end Enumeration
