import Glm52.StableSort
import Mathlib.Data.List.Perm.Subperm
import Mathlib.Data.List.Flatten

/-! # Top-k selection

`ranked score l` lists the positions of `l` by score, highest first, ties to the
lower position, and `strictTopk` cuts it to `k`.  `IsTopk` is the weaker contract
of a selection whose ties are broken in an unspecified way: the right number of
distinct positions, none scoring below a position left out.

Both are computed block by block.  When every position of `l` has an owner, a
global selection may be made from the union of the owners' own selections:
exactly for the strict order (`strictTopk_union`), and as a contract for any
tie-break (`IsTopk.union`), also one block at a time (`IsTopk.append`).  Any two
selections that meet the contract carry the same scores (`IsTopk.scores_perm`), and
they are the same set unless the cut falls between equal scores (`IsTopk.mem_iff`). -/
namespace Topk
variable {β : Type} [LinearOrder β] (score : ℕ → β)

/-! ### The strict order -/

/-- `p` comes no later than `q`: it scores higher, or equally and is no larger. -/
def Before (p q : ℕ) : Prop := score q < score p ∨ (score p = score q ∧ p ≤ q)

instance : DecidableRel (Before score) := fun p q =>
  inferInstanceAs (Decidable (score q < score p ∨ (score p = score q ∧ p ≤ q)))

instance : Std.Total (Before score) where
  total p q := by
    rcases lt_trichotomy (score p) (score q) with h | h | h
    · exact Or.inr (Or.inl h)
    · rcases Nat.le_total p q with hpq | hpq
      · exact Or.inl (Or.inr ⟨h, hpq⟩)
      · exact Or.inr (Or.inr ⟨h.symm, hpq⟩)
    · exact Or.inl (Or.inl h)

instance : Std.Antisymm (Before score) where
  antisymm p q := by
    rintro (h | ⟨h, hpq⟩) (h' | ⟨h', hqp⟩)
    · exact absurd h (lt_asymm h')
    · exact absurd h' h.ne
    · exact absurd h h'.ne
    · exact Nat.le_antisymm hpq hqp

instance : IsTrans ℕ (Before score) where
  trans p q s := by
    rintro (h | ⟨h, hpq⟩) (h' | ⟨h', hqs⟩)
    · exact Or.inl (h'.trans h)
    · exact Or.inl (h' ▸ h)
    · exact Or.inl (h.symm ▸ h')
    · exact Or.inr ⟨h.trans h', hpq.trans hqs⟩

variable {score}

theorem Before.score_le {p q : ℕ} (h : Before score p q) : score q ≤ score p :=
  h.elim le_of_lt (fun h => h.1.ge)

variable (score)

/-- The positions of `l`, highest score first, ties to the lower position. -/
def ranked (l : List ℕ) : List ℕ := l.insertionSort (Before score)

/-- The first `k` positions of `l` in the strict order. -/
def strictTopk (l : List ℕ) (k : ℕ) : List ℕ := (ranked score l).take k

theorem ranked_perm (l : List ℕ) : (ranked score l).Perm l :=
  List.perm_insertionSort (Before score) l

theorem pairwise_ranked (l : List ℕ) : (ranked score l).Pairwise (Before score) :=
  List.pairwise_insertionSort (Before score) l

@[simp] theorem length_ranked (l : List ℕ) : (ranked score l).length = l.length :=
  (ranked_perm score l).length_eq

@[simp] theorem mem_ranked {l : List ℕ} {p : ℕ} : p ∈ ranked score l ↔ p ∈ l :=
  (ranked_perm score l).mem_iff

theorem ranked_nodup {l : List ℕ} (h : l.Nodup) : (ranked score l).Nodup :=
  (ranked_perm score l).nodup_iff.mpr h

/-- A list already in the strict order is the ranking of its positions. -/
theorem eq_ranked_of_perm {l l' : List ℕ} (hp : l'.Perm l) (hs : l'.Pairwise (Before score)) :
    l' = ranked score l :=
  List.Perm.eq_of_pairwise' hs (pairwise_ranked score l) (hp.trans (ranked_perm score l).symm)

theorem ranked_congr {l l' : List ℕ} (h : l.Perm l') : ranked score l = ranked score l' :=
  eq_ranked_of_perm score ((ranked_perm score l).trans h) (pairwise_ranked score l)

theorem ranked_filter (p : ℕ → Bool) (l : List ℕ) :
    (ranked score l).filter p = ranked score (l.filter p) :=
  eq_ranked_of_perm score ((ranked_perm score l).filter p) ((pairwise_ranked score l).filter p)

/-- Ranking commutes with an order-preserving renaming of the positions. -/
theorem ranked_map {f : ℕ → ℕ} (hf : ∀ a b, f a ≤ f b ↔ a ≤ b) (l : List ℕ) :
    (ranked (fun a => score (f a)) l).map f = ranked score (l.map f) :=
  List.map_insertionSort _ _ f l (fun a _ b _ => by simp only [Before, hf])

theorem strictTopk_nodup {l : List ℕ} (h : l.Nodup) (k : ℕ) : (strictTopk score l k).Nodup :=
  (List.take_sublist _ _).nodup (ranked_nodup score h)

theorem strictTopk_subset (l : List ℕ) (k : ℕ) : strictTopk score l k ⊆ l :=
  fun _ hp => (mem_ranked score).mp (List.mem_of_mem_take hp)

@[simp] theorem length_strictTopk (l : List ℕ) (k : ℕ) :
    (strictTopk score l k).length = min k l.length := by
  simp [strictTopk]

/-! ### Selecting from the blocks' own selections -/

section Blocks
variable {l : List ℕ} {ranks : List ℕ} {owner : ℕ → ℕ}

/-- Lists that take their positions from different owners join without
repetition. -/
theorem nodup_flatMap_of_owner {T : ℕ → List ℕ} (hr : ranks.Nodup)
    (hT : ∀ r ∈ ranks, (T r).Nodup) (ho : ∀ r ∈ ranks, ∀ p ∈ T r, owner p = r) :
    (ranks.flatMap T).Nodup := by
  refine List.nodup_flatMap.mpr ⟨hT, ?_⟩
  refine List.Pairwise.imp_of_mem ?_ hr
  intro r s hrm hsm hne p hp hq
  exact hne ((ho r hrm p hp).symm.trans (ho s hsm p hq))

/-- **The strict top-k of a list is the strict top-k of the union of its blocks'
strict top-k.**  A position among the first `k` of the whole list is among the
first `k` of its own block, so the union keeps the whole first `k`. -/
theorem strictTopk_union (hl : l.Nodup) (hr : ranks.Nodup) (ho : ∀ p ∈ l, owner p ∈ ranks)
    (k : ℕ) :
    strictTopk score (ranks.flatMap (fun r => strictTopk score (l.filter (owner · = r)) k)) k =
      strictTopk score l k := by
  set U := ranks.flatMap (fun r => strictTopk score (l.filter (owner · = r)) k) with hU
  have hblock : ∀ r p, p ∈ strictTopk score (l.filter (owner · = r)) k → p ∈ l ∧ owner p = r := by
    intro r p hp
    simpa using strictTopk_subset score _ k hp
  have hnd : U.Nodup := nodup_flatMap_of_owner hr
    (fun r _ => strictTopk_nodup score (hl.filter _) k) (fun r _ p hp => (hblock r p hp).2)
  have hperm : (l.filter (· ∈ U)).Perm U := by
    refine (List.perm_ext_iff_of_nodup (hl.filter _) hnd).mpr (fun p => ?_)
    have hsub : p ∈ U → p ∈ l := by
      intro hp
      obtain ⟨r, _, hpr⟩ := List.mem_flatMap.mp hp
      exact (hblock r p hpr).1
    simp only [List.mem_filter, decide_eq_true_eq]
    exact ⟨fun h => h.2, fun h => ⟨hsub h, h⟩⟩
  have hkeep : ∀ p ∈ (ranked score l).take k, decide (p ∈ U) = true := by
    intro p hp
    have hpl : p ∈ l := (mem_ranked score).mp (List.mem_of_mem_take hp)
    refine decide_eq_true (List.mem_flatMap.mpr ⟨owner p, ho p hpl, ?_⟩)
    unfold strictTopk
    rw [← ranked_filter]
    exact StableSort.mem_take_filter hp (by simp)
  unfold strictTopk
  rw [← ranked_congr score hperm, ← ranked_filter]
  exact StableSort.take_filter_of_forall hkeep

end Blocks

/-! ### Selections with an unspecified tie-break -/

/-- `sel` is a top-`k` selection from `l`: `min k |l|` distinct positions of `l`,
none of which scores below a position left out. -/
structure IsTopk (l : List ℕ) (k : ℕ) (sel : List ℕ) : Prop where
  nodup : sel.Nodup
  subset : sel ⊆ l
  length : sel.length = min k l.length
  best : ∀ a ∈ sel, ∀ b ∈ l, b ∉ sel → score b ≤ score a

variable {score} {l : List ℕ} {k : ℕ} {sel : List ℕ}

theorem strictTopk_isTopk (hl : l.Nodup) : IsTopk score l k (strictTopk score l k) where
  nodup := strictTopk_nodup score hl k
  subset := strictTopk_subset score l k
  length := length_strictTopk score l k
  best := by
    intro a ha b hb hnot
    have hsplit := pairwise_ranked score l
    rw [← List.take_append_drop k (ranked score l)] at hsplit
    have hbd : b ∈ (ranked score l).drop k := by
      have hmem : b ∈ (ranked score l).take k ++ (ranked score l).drop k := by
        rw [List.take_append_drop]; exact (mem_ranked score).mpr hb
      exact (List.mem_append.mp hmem).resolve_left hnot
    exact ((List.pairwise_append.mp hsplit).2.2 a ha b hbd).score_le

theorem IsTopk.congr (h : IsTopk score l k sel) {sel' : List ℕ} (hp : sel'.Perm sel) :
    IsTopk score l k sel' where
  nodup := hp.nodup_iff.mpr h.nodup
  subset := fun _ ha => h.subset (hp.mem_iff.mp ha)
  length := hp.length_eq.trans h.length
  best := fun a ha b hb hn => h.best a (hp.mem_iff.mp ha) b hb (fun hb' => hn (hp.mem_iff.mpr hb'))

/-- Only the scores of the listed positions count. -/
theorem IsTopk.congr_score {score' : ℕ → β} (heq : ∀ p ∈ l, score p = score' p)
    (h : IsTopk score l k sel) : IsTopk score' l k sel where
  nodup := h.nodup
  subset := h.subset
  length := h.length
  best := fun a ha b hb hn => heq b hb ▸ heq a (h.subset ha) ▸ h.best a ha b hb hn

/-- A selection stays one under a renaming that is injective on the listed positions. -/
theorem IsTopk.map_on {score' : ℕ → β} {f : ℕ → ℕ} (hf : ∀ a ∈ l, ∀ b ∈ l, f a = f b → a = b)
    (hscore : ∀ a ∈ l, score a = score' (f a)) (h : IsTopk score l k sel) :
    IsTopk score' (l.map f) k (sel.map f) where
  nodup := h.nodup.map_on fun a ha b hb => hf a (h.subset ha) b (h.subset hb)
  subset := List.map_subset f h.subset
  length := by simpa using h.length
  best := by
    intro fa ha fb hb hn
    obtain ⟨a, has, rfl⟩ := List.mem_map.mp ha
    obtain ⟨b, hbl, rfl⟩ := List.mem_map.mp hb
    rw [← hscore a (h.subset has), ← hscore b hbl]
    exact h.best a has b hbl (fun hbs => hn (List.mem_map_of_mem hbs))

/-- A selection stays one under an injective renaming of the positions. -/
theorem IsTopk.map {f : ℕ → ℕ} (hf : Function.Injective f)
    (h : IsTopk (fun a => score (f a)) l k sel) : IsTopk score (l.map f) k (sel.map f) :=
  h.map_on (fun _ _ _ _ heq => hf heq) fun _ _ => rfl

theorem IsTopk.length_le (h : IsTopk score l k sel) : sel.length ≤ k :=
  h.length ▸ Nat.min_le_left _ _

/-- A position left out is left out because the selection is full. -/
theorem IsTopk.length_of_not_mem (h : IsTopk score l k sel) {b : ℕ} (hb : b ∈ l)
    (hn : b ∉ sel) : sel.length = k := by
  rcases Nat.le_total k l.length with hk | hk
  · rw [h.length, Nat.min_eq_left hk]
  · have hlen : l.length ≤ sel.length := by rw [h.length, Nat.min_eq_right hk]
    have hperm : sel.Perm l := (h.nodup.subperm h.subset).perm_of_length_le hlen
    exact absurd (hperm.mem_iff.mpr hb) hn

/-- Sorting the scores of a selection gives the first `k` of all scores. -/
theorem IsTopk.sorted_scores (hl : l.Nodup) (h : IsTopk score l k sel) :
    (sel.map score).insertionSort (· ≥ ·) = ((l.map score).insertionSort (· ≥ ·)).take k := by
  set rest := l.filter (· ∉ sel) with hrest
  have hsplit : (sel ++ rest).Perm l := by
    refine (List.perm_ext_iff_of_nodup ?_ hl).mpr (fun p => ?_)
    · refine List.nodup_append'.mpr ⟨h.nodup, hl.filter _, fun p hp hq => ?_⟩
      exact of_decide_eq_true (List.mem_filter.mp hq).2 hp
    · simp only [hrest, List.mem_append, List.mem_filter, decide_eq_true_eq]
      exact ⟨fun hp => hp.elim (fun hs => h.subset hs) And.left,
        fun hp => (em (p ∈ sel)).imp id (fun hn => ⟨hp, hn⟩)⟩
  have hjoin : (sel.map score).insertionSort (· ≥ ·) ++ (rest.map score).insertionSort (· ≥ ·) =
      (l.map score).insertionSort (· ≥ ·) := by
    refine List.Perm.eq_of_pairwise' (r := (· ≥ ·)) ?_ (List.pairwise_insertionSort _ _) ?_
    · refine List.pairwise_append.mpr ⟨List.pairwise_insertionSort _ _,
        List.pairwise_insertionSort _ _, fun x hx y hy => ?_⟩
      obtain ⟨a, ha, rfl⟩ := List.mem_map.mp ((List.mem_insertionSort _).mp hx)
      obtain ⟨b, hb, rfl⟩ := List.mem_map.mp ((List.mem_insertionSort _).mp hy)
      obtain ⟨hbl, hbn⟩ := List.mem_filter.mp hb
      exact h.best a ha b hbl (of_decide_eq_true hbn)
    · refine ((List.perm_insertionSort _ _).append (List.perm_insertionSort _ _)).trans ?_
      rw [← List.map_append]
      exact (hsplit.map score).trans (List.perm_insertionSort _ _).symm
  rw [← hjoin, List.take_append]
  have hlen : ((sel.map score).insertionSort (· ≥ ·)).length = sel.length := by simp
  by_cases hfull : ∃ b ∈ l, b ∉ sel
  · obtain ⟨b, hb, hn⟩ := hfull
    have hk := h.length_of_not_mem hb hn
    rw [hlen, hk, Nat.sub_self, List.take_zero, List.append_nil,
      List.take_of_length_le (by rw [hlen, hk])]
  · have hnil : rest = [] := List.filter_eq_nil_iff.mpr (fun b hb => by
      simpa using fun hn => hfull ⟨b, hb, hn⟩)
    rw [hnil, List.map_nil, List.insertionSort_nil, List.take_nil, List.append_nil,
      List.take_of_length_le (by rw [hlen]; exact h.length_le)]

/-- **Any two selections from the same positions carry the same scores.** -/
theorem IsTopk.scores_perm (hl : l.Nodup) (h : IsTopk score l k sel) {sel' : List ℕ}
    (h' : IsTopk score l k sel') : (sel.map score).Perm (sel'.map score) := by
  have heq := (h.sorted_scores hl).trans (h'.sorted_scores hl).symm
  exact (List.perm_insertionSort (· ≥ ·) _).symm.trans
    (heq ▸ List.perm_insertionSort (· ≥ ·) _)

variable (score)

/-- The cut after the first `k` positions falls between two equal scores. -/
def CutTied (l : List ℕ) (k : ℕ) : Prop :=
  ∃ i a b, k = i + 1 ∧ (ranked score l)[i]? = some a ∧ (ranked score l)[i + 1]? = some b ∧
    score a = score b

variable {score}

/-- Off a tie, the positions the strict cut keeps score strictly above those it
drops. -/
theorem score_lt_of_untied (hl : l.Nodup) (hk : 0 < k) (hu : ¬ CutTied score l k) {a b : ℕ}
    (ha : a ∈ strictTopk score l k) (hb : b ∈ l) (hn : b ∉ strictTopk score l k) :
    score b < score a := by
  obtain ⟨i, rfl⟩ : ∃ i, k = i + 1 := ⟨k - 1, by omega⟩
  have hfull : (strictTopk score l (i + 1)).length = i + 1 :=
    (strictTopk_isTopk hl).length_of_not_mem hb hn
  have hlen : i + 1 < l.length := by
    rcases Nat.lt_or_ge (i + 1) l.length with h | h
    · exact h
    · have hall : strictTopk score l (i + 1) = ranked score l :=
        List.take_of_length_le (by rw [length_ranked]; exact h)
      exact absurd (hall ▸ (mem_ranked score).mpr hb) hn
  have hi : i < (ranked score l).length := by rw [length_ranked]; omega
  have hi1 : i + 1 < (ranked score l).length := by rw [length_ranked]; exact hlen
  have hsorted := List.pairwise_iff_getElem.mp (pairwise_ranked score l)
  -- the last kept position scores above the first dropped one
  have hgap : score (ranked score l)[i + 1] < score (ranked score l)[i] := by
    have hle := (hsorted i (i + 1) hi hi1 (Nat.lt_succ_self i)).score_le
    refine lt_of_le_of_ne hle (fun heq => hu ?_)
    exact ⟨i, _, _, rfl, List.getElem?_eq_getElem hi, List.getElem?_eq_getElem hi1, heq.symm⟩
  have hkept : score (ranked score l)[i] ≤ score a := by
    obtain ⟨j, hj, rfl⟩ := List.mem_take_iff_getElem.mp ha
    rcases Nat.lt_or_ge j i with hji | hji
    · exact (hsorted j i (by omega) hi hji).score_le
    · obtain rfl : j = i := by omega
      exact le_rfl
  have hdropped : score b ≤ score (ranked score l)[i + 1] := by
    obtain ⟨j, hj, rfl⟩ := List.getElem_of_mem ((mem_ranked score).mpr hb)
    have hij : i + 1 ≤ j := by
      by_contra hlt
      exact hn (List.mem_take_iff_getElem.mpr ⟨j, by omega, rfl⟩)
    rcases Nat.lt_or_ge (i + 1) j with hlt | hge
    · exact (hsorted (i + 1) j hi1 hj hlt).score_le
    · obtain rfl : j = i + 1 := by omega
      exact le_rfl
  exact lt_of_le_of_lt hdropped (lt_of_lt_of_le hgap hkept)

/-- A selection that holds `a` misses one of as many positions other than `a`. -/
theorem exists_not_mem_of_mem {T : List ℕ} {a : ℕ} (hT : T.Nodup) (haT : a ∉ T) (ha : a ∈ sel)
    (hlen : sel.length ≤ T.length) : ∃ t ∈ T, t ∉ sel := by
  by_contra hall
  have hsub : a :: T ⊆ sel := by
    intro p hp
    rcases List.mem_cons.mp hp with rfl | hp
    · exact ha
    · exact by_contra (fun hn => hall ⟨p, hp, hn⟩)
  have hcount := ((List.nodup_cons.mpr ⟨haT, hT⟩).subperm hsub).length_le
  rw [List.length_cons] at hcount
  omega

/-- **Off a tie, every selection is the strict one.** -/
theorem IsTopk.mem_iff (hl : l.Nodup) (hk : 0 < k) (hu : ¬ CutTied score l k)
    (h : IsTopk score l k sel) (p : ℕ) : p ∈ sel ↔ p ∈ strictTopk score l k := by
  have hs : IsTopk score l k (strictTopk score l k) := strictTopk_isTopk hl
  have hlen : sel.length = (strictTopk score l k).length := h.length.trans hs.length.symm
  have hsub : sel ⊆ strictTopk score l k := by
    intro a ha
    by_contra hna
    obtain ⟨t, ht, hnt⟩ := exists_not_mem_of_mem hs.nodup hna ha hlen.le
    exact absurd (h.best a ha t (hs.subset ht) hnt)
      (not_le_of_gt (score_lt_of_untied hl hk hu ht (h.subset ha) hna))
  exact ((h.nodup.subperm hsub).perm_of_length_le hlen.ge).mem_iff

section Union
variable {ranks : List ℕ} {owner : ℕ → ℕ} {T : ℕ → List ℕ}

/-- The blocks' selections are everything if they are fewer than `k`: a block of which a
position is left out has `k` of them. -/
theorem subset_of_short (ho : ∀ p ∈ l, owner p ∈ ranks)
    (hT : ∀ r ∈ ranks, IsTopk score (l.filter (owner · = r)) k (T r))
    (hshort : (ranks.flatMap T).length < k) : l ⊆ ranks.flatMap T := by
  intro b hb
  by_contra hn
  have hblock : T (owner b) ⊆ ranks.flatMap T := fun p hp =>
    List.mem_flatMap.mpr ⟨_, ho b hb, hp⟩
  have hTb := hT _ (ho b hb)
  have hfull := hTb.length_of_not_mem (b := b) (by simp [hb]) fun hbT => hn (hblock hbT)
  have hcount := (hTb.nodup.subperm hblock).length_le
  omega

/-- **A selection from the union of the blocks' selections is a selection from
the whole list**, whatever the tie-breaks: a position a block leaves out has `k`
positions of that block no worse than it. -/
theorem IsTopk.union (hl : l.Nodup)
    (hr : ranks.Nodup) (ho : ∀ p ∈ l, owner p ∈ ranks)
    (hT : ∀ r ∈ ranks, IsTopk score (l.filter (owner · = r)) k (T r))
    (h : IsTopk score (ranks.flatMap T) k sel) : IsTopk score l k sel := by
  have hblock : ∀ r ∈ ranks, ∀ p ∈ T r, p ∈ l ∧ owner p = r := by
    intro r hrm p hp
    simpa using (hT r hrm).subset hp
  have hsub : ranks.flatMap T ⊆ l := by
    intro p hp
    obtain ⟨r, hrm, hpr⟩ := List.mem_flatMap.mp hp
    exact (hblock r hrm p hpr).1
  have hnd : (ranks.flatMap T).Nodup :=
    nodup_flatMap_of_owner hr (fun r hrm => (hT r hrm).nodup)
      (fun r hrm p hp => (hblock r hrm p hp).2)
  have hle : (ranks.flatMap T).length ≤ l.length := (hnd.subperm hsub).length_le
  refine ⟨h.nodup, fun p hp => hsub (h.subset hp), ?_, ?_⟩
  · rcases Nat.lt_or_ge (ranks.flatMap T).length k with hlt | hge
    · have hge : l.length ≤ (ranks.flatMap T).length :=
        (hl.subperm (subset_of_short ho hT hlt)).length_le
      rw [h.length, Nat.le_antisymm hle hge]
    · rw [h.length, Nat.min_eq_left hge, Nat.min_eq_left (hge.trans hle)]
  · intro a ha b hb hnb
    by_cases hbU : b ∈ ranks.flatMap T
    · exact h.best a ha b hbU hnb
    · have hown : b ∈ l.filter (owner · = owner b) := by simp [hb]
      have hnT : b ∉ T (owner b) := fun hbT => hbU (List.mem_flatMap.mpr ⟨_, ho b hb, hbT⟩)
      have hTb := hT _ (ho b hb)
      have hfull := hTb.length_of_not_mem hown hnT
      by_contra hlt
      have hlt : score a < score b := not_le.mp hlt
      have haT : a ∉ T (owner b) := fun haT =>
        absurd (hTb.best a haT b hown hnT) (not_le_of_gt hlt)
      -- `sel` has no room for `a` and the whole block, so it leaves out some `t` of the block
      obtain ⟨t, ht, hnt⟩ := exists_not_mem_of_mem hTb.nodup haT ha (hfull ▸ h.length_le)
      have htU : t ∈ ranks.flatMap T := List.mem_flatMap.mpr ⟨_, ho b hb, ht⟩
      have h1 := h.best a ha t htU hnt
      have h2 := hTb.best t ht b hown hnT
      exact absurd (h2.trans h1) (not_le_of_gt hlt)

end Union

/-! ### Selections block after block -/

/-- The number asked for counts only up to the number of positions. -/
theorem IsTopk.of_min_eq {k' : ℕ} (hk : min k l.length = min k' l.length)
    (h : IsTopk score l k sel) : IsTopk score l k' sel :=
  { h with length := h.length.trans hk }

/-- **Masked positions displace no other**: a selection without its lowest positions is a
selection from the others. -/
theorem IsTopk.filter_ne_bot [OrderBot β] (hl : l.Nodup) (h : IsTopk score l k sel) :
    IsTopk score (l.filter (score · ≠ ⊥)) k (sel.filter (score · ≠ ⊥)) where
  nodup := h.nodup.filter _
  subset := List.filter_subset _ h.subset
  length := by
    have hsub := List.filter_subset (fun p => decide (score p ≠ ⊥)) h.subset
    have hle := ((h.nodup.filter _).subperm hsub).length_le
    have hlek := (List.length_filter_le (fun p => decide (score p ≠ ⊥)) sel).trans h.length_le
    by_cases hall : ∀ b ∈ l, score b ≠ ⊥ → b ∈ sel
    · have hback : l.filter (score · ≠ ⊥) ⊆ sel.filter (score · ≠ ⊥) := by
        intro b hb
        obtain ⟨hbl, hfin⟩ := List.mem_filter.mp hb
        exact List.mem_filter.mpr ⟨hall b hbl (of_decide_eq_true hfin), hfin⟩
      have hge := ((hl.filter _).subperm hback).length_le
      omega
    · -- a finite position is left out, so the selection is full and all of it is finite
      obtain ⟨b, hbl, hfin, hn⟩ : ∃ b ∈ l, score b ≠ ⊥ ∧ b ∉ sel := by
        by_contra hno
        exact hall fun b hbl hfin => by_contra fun hn => hno ⟨b, hbl, hfin, hn⟩
      have hself : sel.filter (score · ≠ ⊥) = sel := by
        refine List.filter_eq_self.mpr fun a ha => decide_eq_true fun hbot => ?_
        exact hfin (le_bot_iff.mp (hbot ▸ h.best a ha b hbl hn))
      have hfull := h.length_of_not_mem hbl hn
      rw [hself] at hle ⊢
      omega
  best := by
    intro a ha b hb hn
    obtain ⟨hbl, hfin⟩ := List.mem_filter.mp hb
    exact h.best a (List.mem_filter.mp ha).1 b hbl fun hbs =>
      hn (List.mem_filter.mpr ⟨hbs, hfin⟩)

/-- **Two blocks**: a selection from the selections of two blocks of positions, one below
the other, is a selection from both. -/
theorem IsTopk.append {l₁ l₂ sel₁ sel₂ : List ℕ} {m : ℕ} (hl₁ : l₁.Nodup) (hl₂ : l₂.Nodup)
    (hlow : ∀ p ∈ l₁, p < m) (hhigh : ∀ p ∈ l₂, m ≤ p) (h₁ : IsTopk score l₁ k sel₁)
    (h₂ : IsTopk score l₂ k sel₂) (h : IsTopk score (sel₁ ++ sel₂) k sel) :
    IsTopk score (l₁ ++ l₂) k sel := by
  let owner : ℕ → ℕ := fun p => if p < m then 0 else 1
  have hlo : ∀ p ∈ l₁, owner p = 0 := fun p hp => if_pos (hlow p hp)
  have hhi : ∀ p ∈ l₂, owner p = 1 := fun p hp => if_neg (not_lt.mpr (hhigh p hp))
  have hblock₁ : (l₁ ++ l₂).filter (owner · = 0) = l₁ := by
    rw [List.filter_append, List.filter_eq_self.mpr, List.filter_eq_nil_iff.mpr, List.append_nil]
    · intro p hp
      simp [hhi p hp]
    · intro p hp
      simp [hlo p hp]
  have hblock₂ : (l₁ ++ l₂).filter (owner · = 1) = l₂ := by
    rw [List.filter_append, List.filter_eq_nil_iff.mpr, List.filter_eq_self.mpr, List.nil_append]
    · intro p hp
      simp [hhi p hp]
    · intro p hp
      simp [hlo p hp]
  have hdisj : ∀ p ∈ l₁, ∀ q ∈ l₂, p ≠ q := by
    intro p hp q hq heq
    exact absurd (hlow p hp) (not_lt.mpr (heq ▸ hhigh q hq))
  refine @IsTopk.union β _ score (l₁ ++ l₂) k sel [0, 1] owner
    (fun r => if r = 0 then sel₁ else sel₂) (List.nodup_append.mpr ⟨hl₁, hl₂, hdisj⟩)
    (by decide) ?_ ?_ (by simpa using h)
  · intro p hp
    rcases List.mem_append.mp hp with hp | hp
    · simp [hlo p hp]
    · simp [hhi p hp]
  · intro r hr
    rcases List.mem_pair.mp hr with rfl | rfl
    · rw [hblock₁]
      exact h₁
    · rw [hblock₂]
      exact h₂

end Topk
