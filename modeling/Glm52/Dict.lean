import Mathlib.Data.List.Nodup

/-! # Insertion-ordered dictionaries

A dictionary is a list of entries with distinct keys, in the order in which the keys
were first set; setting a key again changes its value in place.  (Mathlib's `AList`
moves such a key to the front, and the order of the entries matters to programs that
iterate.)

`get?_set` is the law of the operations.  A dictionary built from pairs with distinct
keys has just these pairs as its entries (`entries_ofPairs`). -/

/-- Entries with distinct keys. -/
structure Dict (κ ν : Type) where
  entries : List (κ × ν)
  nodup : (entries.map Prod.fst).Nodup

namespace Dict

variable {κ ν : Type}

def keys (d : Dict κ ν) : List κ := d.entries.map Prod.fst

def empty : Dict κ ν := ⟨[], List.nodup_nil⟩

@[ext] theorem ext {d d' : Dict κ ν} (h : d.entries = d'.entries) : d = d' := by
  cases d
  cases d'
  cases h
  rfl

section Operations
variable [DecidableEq κ]

/-- The value of a key in a list of entries, the first one. -/
def getEntry (k : κ) : List (κ × ν) → Option ν
  | [] => none
  | (k', v) :: rest => if k' = k then some v else getEntry k rest

/-- `d.get(k)`. -/
def get? (d : Dict κ ν) (k : κ) : Option ν := getEntry k d.entries

/-- Set a key in a list of entries: in place, or behind the last one. -/
def setEntry (k : κ) (v : ν) : List (κ × ν) → List (κ × ν)
  | [] => [(k, v)]
  | (k', v') :: rest => if k' = k then (k, v) :: rest else (k', v') :: setEntry k v rest

theorem keys_setEntry (k : κ) (v : ν) (entries : List (κ × ν)) :
    (setEntry k v entries).map Prod.fst =
      if k ∈ entries.map Prod.fst then entries.map Prod.fst
      else entries.map Prod.fst ++ [k] := by
  induction entries with
  | nil => rfl
  | cons e rest ih =>
    obtain ⟨k', v'⟩ := e
    rw [setEntry]
    by_cases hk : k' = k
    · rw [if_pos hk, hk]
      simp
    · have hmem : k ∈ ((k', v') :: rest).map Prod.fst ↔ k ∈ rest.map Prod.fst := by
        rw [List.map_cons, List.mem_cons]
        exact or_iff_right (Ne.symm hk)
      rw [if_neg hk, List.map_cons, ih, if_congr hmem rfl rfl]
      split
      · rfl
      · rfl

/-- `d[k] = v`. -/
def set (d : Dict κ ν) (k : κ) (v : ν) : Dict κ ν where
  entries := setEntry k v d.entries
  nodup := by
    rw [keys_setEntry]
    split
    · exact d.nodup
    · next hk => exact List.Nodup.append d.nodup (List.nodup_singleton k) (by simpa using hk)

/-- `{k: v for k, v in pairs}`. -/
def ofPairs (pairs : List (κ × ν)) : Dict κ ν := pairs.foldl (fun d e => d.set e.1 e.2) empty

/-! ### Laws -/

theorem getEntry_setEntry (k k' : κ) (v : ν) (entries : List (κ × ν)) :
    getEntry k' (setEntry k v entries) = if k' = k then some v else getEntry k' entries := by
  induction entries with
  | nil =>
    rw [setEntry, getEntry]
    exact if_congr eq_comm rfl rfl
  | cons e rest ih =>
    obtain ⟨k₁, v₁⟩ := e
    rw [setEntry]
    by_cases h₁ : k₁ = k
    · rw [if_pos h₁, getEntry, getEntry, h₁]
      by_cases hk : k' = k
      · rw [if_pos hk.symm, if_pos hk]
      · rw [if_neg (Ne.symm hk), if_neg hk, if_neg (Ne.symm hk)]
    · rw [if_neg h₁, getEntry, getEntry, ih]
      by_cases hk : k₁ = k'
      · rw [if_pos hk, if_pos hk, if_neg (fun h => h₁ (hk.trans h))]
      · rw [if_neg hk, if_neg hk]

/-- **What is set is read back, and the other keys keep their values.** -/
theorem get?_set (d : Dict κ ν) (k k' : κ) (v : ν) :
    (d.set k v).get? k' = if k' = k then some v else d.get? k' :=
  getEntry_setEntry k k' v d.entries

theorem mem_keys_set {d : Dict κ ν} {k k' : κ} {v : ν} :
    k' ∈ (d.set k v).keys ↔ k' = k ∨ k' ∈ d.keys := by
  unfold keys set
  dsimp only
  rw [keys_setEntry]
  split
  · next hk =>
    constructor
    · exact Or.inr
    · rintro (rfl | h)
      · exact hk
      · exact h
  · rw [List.mem_append, List.mem_singleton, or_comm]

/-- A fresh key goes behind the others. -/
theorem entries_set_of_fresh {d : Dict κ ν} {k : κ} (hk : k ∉ d.keys) (v : ν) :
    (d.set k v).entries = d.entries ++ [(k, v)] := by
  have hset : ∀ entries : List (κ × ν), k ∉ entries.map Prod.fst →
      setEntry k v entries = entries ++ [(k, v)] := by
    intro entries
    induction entries with
    | nil => exact fun _ => rfl
    | cons e rest ih =>
      intro hfresh
      rw [List.map_cons, List.mem_cons, not_or] at hfresh
      rw [setEntry, if_neg (Ne.symm hfresh.1), ih hfresh.2, List.cons_append]
  exact hset d.entries hk

/-- Pairs with distinct fresh keys, set one after another. -/
theorem entries_foldl_set {pairs : List (κ × ν)} (hnodup : (pairs.map Prod.fst).Nodup)
    (d : Dict κ ν) (hfresh : ∀ k ∈ pairs.map Prod.fst, k ∉ d.keys) :
    (pairs.foldl (fun d e => d.set e.1 e.2) d).entries = d.entries ++ pairs := by
  induction pairs generalizing d with
  | nil => rw [List.foldl_nil, List.append_nil]
  | cons e rest ih =>
    rw [List.map_cons, List.nodup_cons] at hnodup
    have he : e.1 ∉ d.keys := hfresh e.1 (by rw [List.map_cons]; exact List.mem_cons_self)
    rw [List.foldl_cons, ih hnodup.2, entries_set_of_fresh he, List.append_assoc]
    · rfl
    · intro k hk hmem
      rcases mem_keys_set.mp hmem with rfl | hmem
      · exact hnodup.1 hk
      · exact hfresh k (by rw [List.map_cons]; exact List.mem_cons_of_mem _ hk) hmem

/-- **Distinct pairs are the entries**, in their order. -/
theorem entries_ofPairs {pairs : List (κ × ν)} (hnodup : (pairs.map Prod.fst).Nodup) :
    (ofPairs pairs).entries = pairs := by
  rw [ofPairs, entries_foldl_set hnodup empty (fun k _ hk => List.not_mem_nil hk)]
  rfl

/-- A key has the value of its entry. -/
theorem get?_eq_some {d : Dict κ ν} {k : κ} {v : ν} :
    d.get? k = some v ↔ (k, v) ∈ d.entries := by
  obtain ⟨entries, hnodup⟩ := d
  show getEntry k entries = some v ↔ (k, v) ∈ entries
  induction entries with
  | nil => simp [getEntry]
  | cons e rest ih =>
    obtain ⟨k', v'⟩ := e
    rw [List.map_cons, List.nodup_cons] at hnodup
    rw [getEntry, List.mem_cons]
    by_cases hk : k' = k
    · subst hk
      rw [if_pos rfl]
      constructor
      · intro h
        exact Or.inl (congrArg (Prod.mk k') (Option.some.inj h).symm)
      · rintro (h | h)
        · rw [(Prod.mk.inj h).2]
        · exact absurd (List.mem_map.mpr ⟨_, h, rfl⟩) hnodup.1
    · rw [if_neg hk, ih hnodup.2]
      exact (or_iff_right (fun h => hk (Prod.mk.inj h).1.symm)).symm

/-- The keys are the ones that have a value. -/
theorem mem_keys_iff {d : Dict κ ν} {k : κ} : k ∈ d.keys ↔ ∃ v, d.get? k = some v := by
  rw [keys, List.mem_map]
  constructor
  · rintro ⟨⟨k', v⟩, he, rfl⟩
    exact ⟨v, get?_eq_some.mpr he⟩
  · rintro ⟨v, hv⟩
    exact ⟨(k, v), get?_eq_some.mp hv, rfl⟩

/-- The keys that pairs set, distinct or not. -/
theorem mem_keys_ofPairs {pairs : List (κ × ν)} {k : κ} :
    k ∈ (ofPairs pairs).keys ↔ k ∈ pairs.map Prod.fst := by
  have hfold : ∀ (pairs : List (κ × ν)) (d : Dict κ ν),
      k ∈ (pairs.foldl (fun d e => d.set e.1 e.2) d).keys ↔
        k ∈ pairs.map Prod.fst ∨ k ∈ d.keys := by
    intro pairs
    induction pairs with
    | nil => exact fun d => (or_iff_right List.not_mem_nil).symm
    | cons e pairs ih =>
      intro d
      rw [List.foldl_cons, ih, mem_keys_set, List.map_cons, List.mem_cons]
      tauto
  exact (hfold pairs empty).trans (or_iff_left List.not_mem_nil)

theorem get?_empty (k : κ) : (empty : Dict κ ν).get? k = none := rfl

theorem get?_ofPairs {pairs : List (κ × ν)} (hnodup : (pairs.map Prod.fst).Nodup) {k : κ} {v : ν} :
    (ofPairs pairs).get? k = some v ↔ (k, v) ∈ pairs := by
  rw [get?_eq_some, entries_ofPairs hnodup]

end Operations

end Dict
