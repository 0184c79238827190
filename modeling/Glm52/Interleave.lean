import Glm52.Enumeration

/-! # Interleaved sharding of a context over the DCP ranks

The positions of a request are dealt to the ranks in turns of
`cp_kv_cache_interleave_size = I` positions each: position `p` lives on rank
`p / I % N`, and `interleavedPos` is the position of a rank's local slot.
`localSeqLens` is the length localisation the decode metadata applies to its
sequence lengths.  At every interleave size it counts the positions the rank
owns, since a slot is below it exactly when its position is below the global
length (`lt_localSeqLens_iff`).

The builders run with interleave 1, where position `p` is rank `p % N`'s slot
`p / N` and rank `r`'s slot `l` is position `l * N + r`; `own` is the prefill
builder's copy of the localisation at that size.  Everything downstream uses its
cut (`lt_own_iff`), that the positions a rank owns are the ones it lists
(`ownedPositions_eq_filter`), and that their number over all ranks is the length
(`sum_own`).

Lengths, positions and slots are `ℕ`; index lanes that may hold the `-1`
sentinel are `ℤ`. -/
namespace Glm52
open Enumeration

/-- `torch.clamp(x, min=lo, max=hi)`. -/
def clamp (x lo hi : ℤ) : ℤ := min (max x lo) hi

/-- `_rounds * _I + _rem` of the decode metadata: rank `r`'s share of a global
length `g` at interleave size `I`. -/
def localSeqLens (N I r g : ℕ) : ℕ :=
  g / (N * I) * I + (clamp ((g % (N * I) : ℕ) - (r * I : ℕ)) 0 I).toNat

/-- `_own(gt, rk)` of the prefill chunk builder. -/
def own (N gt rk : ℕ) : ℕ := gt / N + (clamp ((gt % N : ℕ) - (rk : ℤ)) 0 1).toNat

/-- The two localisations agree at interleave 1. -/
theorem localSeqLens_one (N r g : ℕ) : localSeqLens N 1 r g = own N g r := by
  simp [localSeqLens, own]

theorem own_eq (N g r : ℕ) : own N g r = g / N + if r < g % N then 1 else 0 := by
  unfold own clamp
  split <;> omega

variable {N I r : ℕ}

/-! ### Any interleave size -/

/-- The global position of rank `r`'s local slot `l` at interleave size `I`: in its turn
`l / I` the rank's block lies behind those of the ranks before it. -/
def interleavedPos (N I r l : ℕ) : ℕ := (l / I * N + r) * I + l % I

theorem interleavedPos_eq (l : ℕ) :
    interleavedPos N I r l = l / I * (N * I) + (r * I + l % I) := by
  rw [interleavedPos, Nat.add_mul, Nat.mul_assoc, Nat.add_assoc]

theorem localSeqLens_eq (g : ℕ) :
    localSeqLens N I r g = g / (N * I) * I + min (g % (N * I) - r * I) I := by
  unfold localSeqLens clamp
  generalize g % (N * I) = rest, r * I = start
  omega

/-- A rank's block ends inside its turn. -/
theorem block_lt (hr : r < N) {o : ℕ} (ho : o < I) : r * I + o < N * I := by
  have hblock : (r + 1) * I ≤ N * I := Nat.mul_le_mul_right I hr
  rw [Nat.succ_mul] at hblock
  omega

/-- **A local slot is counted iff its position is below the global length.**  Both sides
compare the turn first, and in the last turn the offset in the block. -/
theorem lt_localSeqLens_iff (hI : 0 < I) (hr : r < N) (l g : ℕ) :
    l < localSeqLens N I r g ↔ interleavedPos N I r l < g := by
  have ho : l % I < I := Nat.mod_lt l hI
  have hrest : g % (N * I) < N * I := Nat.mod_lt g (Nat.mul_pos (by omega) hI)
  have hslot : l < localSeqLens N I r g ↔ l / I < g / (N * I) ∨
      l / I = g / (N * I) ∧ l % I < min (g % (N * I) - r * I) I := by
    rw [localSeqLens_eq, ← digits_lt_iff ho (Nat.min_le_right _ _), Nat.div_add_mod']
  have hpos : interleavedPos N I r l < g ↔ l / I < g / (N * I) ∨
      l / I = g / (N * I) ∧ r * I + l % I < g % (N * I) := by
    rw [interleavedPos_eq, ← digits_lt_iff (block_lt hr ho) hrest.le, Nat.div_add_mod']
  rw [hslot, hpos]
  omega

theorem interleavedPos_lt_iff (hI : 0 < I) (hr : r < N) (l l' : ℕ) :
    interleavedPos N I r l < interleavedPos N I r l' ↔ l < l' := by
  have ho : l % I < I := Nat.mod_lt l hI
  have ho' : l' % I < I := Nat.mod_lt l' hI
  rw [interleavedPos_eq, interleavedPos_eq,
    digits_lt_iff (block_lt hr ho) (block_lt hr ho').le, Nat.add_lt_add_iff_left,
    ← digits_lt_iff ho ho'.le, Nat.div_add_mod', Nat.div_add_mod']

/-- The slots of rank `r` are its positions. -/
theorem interleavedPos_enumerates (hI : 0 < I) (hr : r < N) :
    Enumerates (interleavedPos N I r) (fun p => p / I % N = r) where
  strictMono l l' hlt := (interleavedPos_lt_iff hI hr l l').mpr hlt
  iff_exists p := by
    constructor
    · intro howner
      -- turn `p / I / N`, offset `p % I`
      refine ⟨p / I / N * I + p % I, ?_⟩
      have ho : p % I < I := Nat.mod_lt p hI
      rw [interleavedPos, digits_div _ ho, Nat.mul_add_mod_of_lt ho, ← howner, Nat.div_add_mod',
        Nat.div_add_mod']
    · rintro ⟨l, rfl⟩
      rw [interleavedPos, digits_div _ (Nat.mod_lt l hI), Nat.mul_add_mod_of_lt hr]

/-- **The localised length counts the positions of the rank.** -/
theorem localSeqLens_eq_card (hI : 0 < I) (hr : r < N) (g : ℕ) :
    localSeqLens N I r g = ((Finset.range g).filter (· / I % N = r)).card :=
  (interleavedPos_enumerates hI hr).eq_card fun l => lt_localSeqLens_iff hI hr l g

/-- Every position is on one rank: the localised lengths add up to the length. -/
theorem sum_localSeqLens (hI : 0 < I) (hN : 0 < N) (g : ℕ) :
    ((List.range N).map fun r => localSeqLens N I r g).sum = g := by
  have hcard : ((List.range N).map fun r => localSeqLens N I r g) =
      (List.range N).map fun r => ((Finset.range g).filter (· / I % N = r)).card :=
    List.map_congr_left fun r hr => localSeqLens_eq_card hI (List.mem_range.mp hr) g
  rw [hcard]
  exact sum_card_class (fun p => Nat.mod_lt (p / I) hN) g

/-! ### Interleave 1 -/

theorem interleavedPos_one (l : ℕ) : interleavedPos N 1 r l = l * N + r := by
  rw [interleavedPos, Nat.div_one, Nat.mod_one, Nat.mul_one, Nat.add_zero]

/-- **A local slot is owned iff its position is below the global length.** -/
theorem lt_own_iff (hr : r < N) (l g : ℕ) : l < own N g r ↔ l * N + r < g := by
  rw [← localSeqLens_one, lt_localSeqLens_iff Nat.one_pos hr, interleavedPos_one]

/-- A position's own slot is below its owner's count. -/
theorem div_lt_own {p g : ℕ} (hN : 0 < N) (hp : p < g) : p / N < own N g (p % N) := by
  rw [lt_own_iff (Nat.mod_lt p hN), Nat.div_add_mod']
  exact hp

theorem own_le_ceil (hr : r < N) {g m : ℕ} (h : g ≤ m) : own N g r ≤ (m + N - 1) / N := by
  by_contra hlt
  have hslot := (lt_own_iff hr _ g).mp (Nat.lt_of_not_le hlt)
  have hceil := Nat.div_add_mod' (m + N - 1) N
  have hmod : (m + N - 1) % N < N := Nat.mod_lt _ (by omega)
  omega

/-- The global position of rank `r`'s local slot `l`. -/
def globalPos (N r l : ℕ) : ℕ := l * N + r

@[simp] theorem globalPos_mod (hr : r < N) (l : ℕ) : globalPos N r l % N = r := by
  rw [globalPos, Nat.mul_add_mod_of_lt hr]

@[simp] theorem globalPos_div (hr : r < N) (l : ℕ) : globalPos N r l / N = l := by
  rw [globalPos, digits_div l hr]

theorem globalPos_enumerates (hr : r < N) : Enumerates (globalPos N r) (· % N = r) := by
  have hpos : globalPos N r = interleavedPos N 1 r := funext fun l => (interleavedPos_one l).symm
  rw [hpos]
  simpa using interleavedPos_enumerates Nat.one_pos hr

theorem own_cuts (hr : r < N) (g : ℕ) : Cuts (globalPos N r) (own N g r) g :=
  fun l => lt_own_iff hr l g

theorem globalPos_le_iff (hr : r < N) (a b : ℕ) :
    globalPos N r a ≤ globalPos N r b ↔ a ≤ b :=
  (globalPos_enumerates hr).strictMono.le_iff_le

theorem globalPos_injective (hr : r < N) : Function.Injective (globalPos N r) :=
  (globalPos_enumerates hr).strictMono.injective

/-- The positions of rank `r` in a context of length `g`, slot by slot. -/
def ownedPositions (N g r : ℕ) : List ℕ := (List.range (own N g r)).map (globalPos N r)

theorem mem_ownedPositions (hr : r < N) {g p : ℕ} :
    p ∈ ownedPositions N g r ↔ p < g ∧ p % N = r :=
  (globalPos_enumerates hr).mem_map_range (own_cuts hr g)

/-- **A rank's slots, in order, are its positions in increasing order.** -/
theorem ownedPositions_eq_filter (hr : r < N) (g : ℕ) :
    ownedPositions N g r = (List.range g).filter (· % N = r) :=
  (globalPos_enumerates hr).map_range (own_cuts hr g)

/-- Every position is owned once: the owned counts add up to the length. -/
theorem sum_own (hN : 0 < N) (g : ℕ) : ((List.range N).map (own N g)).sum = g := by
  have hsum := sum_localSeqLens Nat.one_pos hN g
  simpa only [localSeqLens_one] using hsum

/-! ### The localised lengths of a batch -/

/-- `dcp_local_seq_lens` of the decode metadata, entry by entry: none on a single rank. -/
def dcpLocalSeqLens (N I r : ℕ) (seqLens : List ℕ) : Except String (Option (List ℕ)) :=
  if 1 < N then
    if I = 1 then .ok (some (seqLens.map (localSeqLens N I r)))
    else .error "GLM52_DCP item B requires cp_kv_cache_interleave_size==1"
  else .ok none

theorem dcpLocalSeqLens_eq_ok_iff {seqLens lens : List ℕ} :
    dcpLocalSeqLens N I r seqLens = .ok (some lens) ↔
      1 < N ∧ I = 1 ∧ seqLens.map (fun g => own N g r) = lens := by
  unfold dcpLocalSeqLens
  split
  next hN =>
    split
    next hI =>
      subst hI
      have hown : localSeqLens N 1 r = fun g => own N g r := funext (localSeqLens_one N r)
      simp [hN, hown]
    next hI => simp [hI]
  next hN => simp [hN]

/-- The lengths that the ranks store for an entry add up to the entry. -/
theorem sum_dcpLocalSeqLens (hN : 0 < N) {seqLens : List ℕ} {lens : ℕ → List ℕ}
    (hlens : ∀ r < N, dcpLocalSeqLens N I r seqLens = .ok (some (lens r))) {i g : ℕ}
    (hi : seqLens[i]? = some g) : ((List.range N).map fun r => (lens r).getD i 0).sum = g := by
  have hentry : ((List.range N).map fun r => (lens r).getD i 0) =
      (List.range N).map (own N g) := by
    refine List.map_congr_left fun r hr => ?_
    obtain ⟨-, -, hown⟩ := dcpLocalSeqLens_eq_ok_iff.mp (hlens r (List.mem_range.mp hr))
    rw [← hown, List.getD_eq_getElem?_getD, List.getElem?_map, hi]
    rfl
  rw [hentry, sum_own hN]

/-! ### The shards of the reassembly check -/

/-- `L[r, q]`, the check's own count of rank `r`'s keys below `g`. -/
def shardLen (N g r : ℕ) : ℕ := if r < g then (g - r + N - 1) / N else 0

theorem shardLen_eq_own (hr : r < N) (g : ℕ) : shardLen N g r = own N g r := by
  refine eq_of_forall_lt_iff fun l => ?_
  rw [lt_own_iff hr]
  unfold shardLen
  split
  · rw [Nat.lt_div_iff_mul_lt (by omega)]
    omega
  · omega

/-- The loop `while p < g: …; p += N` over a rank's keys; a group has a rank, so `N` is
positive. -/
def shardKeys (N g p : ℕ) : List ℕ :=
  if 0 < N ∧ p < g then p :: shardKeys N g (p + N) else []
termination_by g - p

/-- From slot `l` on the loop visits the slots that are left. -/
theorem shardKeys_globalPos (hr : r < N) (g l : ℕ) :
    shardKeys N g (globalPos N r l) =
      (List.range' l (own N g r - l)).map (globalPos N r) := by
  have hN : 0 < N := by omega
  induction hleft : own N g r - l generalizing l with
  | zero =>
    have hend : ¬ globalPos N r l < g := by
      rw [← own_cuts hr g l]
      omega
    rw [shardKeys, if_neg (fun h => hend h.2)]
    rfl
  | succ left ih =>
    have hkey : globalPos N r l < g := (own_cuts hr g l).mp (by omega)
    have hnext : globalPos N r l + N = globalPos N r (l + 1) := by
      rw [globalPos, globalPos, Nat.succ_mul]
      omega
    rw [shardKeys, if_pos ⟨hN, hkey⟩, hnext, ih (l + 1) (by omega), List.range'_succ,
      List.map_cons]

/-- **The loop from `p = r` visits the positions of rank `r`.** -/
theorem shardKeys_eq_ownedPositions (hr : r < N) (g : ℕ) :
    shardKeys N g r = ownedPositions N g r := by
  have hkeys := shardKeys_globalPos hr g 0
  rwa [globalPos, Nat.zero_mul, Nat.zero_add, Nat.sub_zero, ← List.range_eq_range'] at hkeys

/-! ### Ownership -/

/-- **Length localisation counts ownership exactly**, at every interleave size; over the
ranks the counts add up to the length, the prefill builder's copy is the one at
interleave 1, and there a rank's slots run through its positions in increasing order. -/
theorem length_localisation (hI : 0 < I) (hr : r < N) (g : ℕ) :
    localSeqLens N I r g = ((Finset.range g).filter (fun p => p / I % N = r)).card ∧
    ((List.range N).map fun rr => localSeqLens N I rr g).sum = g ∧
    own N g r = localSeqLens N 1 r g ∧
    (List.range (own N g r)).map (fun lp => lp * N + r) =
      (List.range g).filter (fun p => p % N = r) :=
  ⟨localSeqLens_eq_card hI hr g, sum_localSeqLens hI (by omega) g, (localSeqLens_one N r g).symm,
    ownedPositions_eq_filter hr g⟩

/-- Eleven positions over three ranks in turns of two: rank 1 has 2, 3, 8 and 9; in turns
of one it has 1, 4, 7 and 10. -/
theorem length_localisation_eleven :
    localSeqLens 3 2 1 11 = ((Finset.range 11).filter (fun p => p / 2 % 3 = 1)).card ∧
    ((List.range 3).map fun rr => localSeqLens 3 2 rr 11).sum = 11 ∧
    own 3 11 1 = localSeqLens 3 1 1 11 ∧
    (List.range (own 3 11 1)).map (fun lp => lp * 3 + 1) =
      (List.range 11).filter (fun p => p % 3 = 1) :=
  length_localisation (by decide) (by decide) 11

end Glm52
