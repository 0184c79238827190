import Glm52.Enumeration

/-! # Tensors with shapes

Dense tensors of two, three and four dimensions: the sizes, and the element at each
index.  Only indices below the sizes mean anything; an element beyond them is whatever
the function gives, like the contents of uninitialised memory.

Slices clamp to the dimension, an assignment to a slice broadcasts dimensions of size
one and fails on other mismatches, and a reshape fails unless the element counts
agree. -/
namespace TensorShape

variable {α : Type}

structure Tensor2 (α : Type) where
  d0 : ℕ
  d1 : ℕ
  get : ℕ → ℕ → α

structure Tensor3 (α : Type) where
  d0 : ℕ
  d1 : ℕ
  d2 : ℕ
  get : ℕ → ℕ → ℕ → α

structure Tensor4 (α : Type) where
  d0 : ℕ
  d1 : ℕ
  d2 : ℕ
  d3 : ℕ
  get : ℕ → ℕ → ℕ → ℕ → α

/-! ### Slices and assignments -/

/-- The length of `[start:stop]` in a dimension of size `n`. -/
def sliceLen (n start stop : ℕ) : ℕ := min stop n - min start n

/-- A dimension of size `m` may be assigned to one of size `n`. -/
def Broadcasts (m n : ℕ) : Prop := m = n ∨ m = 1

instance (m n : ℕ) : Decidable (Broadcasts m n) := inferInstanceAs (Decidable (_ ∨ _))

/-- The index read in a dimension of size `m` that is being broadcast. -/
def bcast (m i : ℕ) : ℕ := if m = 1 then 0 else i

/-- `x[start:stop]`. -/
def Tensor3.rows (x : Tensor3 α) (start stop : ℕ) : Tensor3 α where
  d0 := sliceLen x.d0 start stop
  d1 := x.d1
  d2 := x.d2
  get := fun t h d => x.get (start + t) h d

/-- `x[:, :n, :]`. -/
def Tensor3.heads (x : Tensor3 α) (n : ℕ) : Tensor3 α := { x with d1 := min n x.d1 }

/-- `x[:, :n]`. -/
def Tensor2.heads (x : Tensor2 α) (n : ℕ) : Tensor2 α := { x with d1 := min n x.d1 }

/-- `x[:, :, :n, :]`. -/
def Tensor4.heads (x : Tensor4 α) (n : ℕ) : Tensor4 α := { x with d2 := min n x.d2 }

/-- `p = x.new_zeros(..); p[:, :, :x.size(2), :] = x`, with `n` heads in `p`. -/
def Tensor4.padHeads (x : Tensor4 α) (n : ℕ) (zero : α) : Tensor4 α where
  d0 := x.d0
  d1 := x.d1
  d2 := n
  d3 := x.d3
  get := fun b i h d => if h < x.d2 then x.get b i h d else zero

/-- `x[start:stop] = y`. -/
def Tensor3.assignRows (x : Tensor3 α) (start stop : ℕ) (y : Tensor3 α) : Option (Tensor3 α) :=
  if Broadcasts y.d0 (sliceLen x.d0 start stop) ∧ Broadcasts y.d1 x.d1 ∧ Broadcasts y.d2 x.d2 then
    some { x with
      get := fun t h d =>
        if start ≤ t ∧ t < stop then
          y.get (bcast y.d0 (t - start)) (bcast y.d1 h) (bcast y.d2 d)
        else x.get t h d }
  else none

/-- `x[start:stop] = y`. -/
def Tensor2.assignRows (x : Tensor2 α) (start stop : ℕ) (y : Tensor2 α) : Option (Tensor2 α) :=
  if Broadcasts y.d0 (sliceLen x.d0 start stop) ∧ Broadcasts y.d1 x.d1 then
    some { x with
      get := fun t h =>
        if start ≤ t ∧ t < stop then y.get (bcast y.d0 (t - start)) (bcast y.d1 h)
        else x.get t h }
  else none

/-- `x[:, :n, :] = y`. -/
def Tensor3.assignHeads (x : Tensor3 α) (n : ℕ) (y : Tensor3 α) : Option (Tensor3 α) :=
  if Broadcasts y.d0 x.d0 ∧ Broadcasts y.d1 (min n x.d1) ∧ Broadcasts y.d2 x.d2 then
    some { x with
      get := fun t h d =>
        if h < n then y.get (bcast y.d0 t) (bcast y.d1 h) (bcast y.d2 d) else x.get t h d }
  else none

/-! ### Rank changes -/

/-- `x.unsqueeze(0)`. -/
def Tensor3.unsqueeze0 (x : Tensor3 α) : Tensor4 α where
  d0 := 1
  d1 := x.d0
  d2 := x.d1
  d3 := x.d2
  get := fun _ t h d => x.get t h d

/-- `x.squeeze(0)`, of a batch of one. -/
def Tensor4.squeeze0 (x : Tensor4 α) : Tensor3 α where
  d0 := x.d1
  d1 := x.d2
  d2 := x.d3
  get := fun t h d => x.get 0 t h d

/-- `x.squeeze(0)`, of a batch of one. -/
def Tensor3.squeeze0 (x : Tensor3 α) : Tensor2 α where
  d0 := x.d1
  d1 := x.d2
  get := fun h t => x.get 0 h t

/-- `x.transpose(0, 1)`. -/
def Tensor2.transpose01 (x : Tensor2 α) : Tensor2 α where
  d0 := x.d1
  d1 := x.d0
  get := fun i j => x.get j i

/-- `x.transpose(1, 2)`. -/
def Tensor3.transpose12 (x : Tensor3 α) : Tensor3 α where
  d0 := x.d0
  d1 := x.d2
  d2 := x.d1
  get := fun b i j => x.get b j i

/-- `x.reshape(m, n)`. -/
def Tensor3.reshape2 (x : Tensor3 α) (m n : ℕ) : Option (Tensor2 α) :=
  if x.d0 * x.d1 * x.d2 = m * n then
    some {
      d0 := m
      d1 := n
      get := fun i j =>
        let k := i * n + j
        x.get (k / (x.d1 * x.d2)) (k / x.d2 % x.d1) (k % x.d2) }
  else none

/-! ### What they read -/

theorem sliceLen_zero {n stop : ℕ} (h : stop ≤ n) : sliceLen n 0 stop = stop := by
  unfold sliceLen
  omega

theorem bcast_of_lt {m i : ℕ} (h : i < m) : bcast m i = i := by
  unfold bcast
  split <;> omega

section Assign
variable {start stop : ℕ}

theorem Tensor3.assignRows_shape {x y z : Tensor3 α} (h : x.assignRows start stop y = some z) :
    z.d0 = x.d0 ∧ z.d1 = x.d1 ∧ z.d2 = x.d2 := by
  unfold Tensor3.assignRows at h
  split at h
  · cases h
    exact ⟨rfl, rfl, rfl⟩
  · cases h

/-- An assignment of the slice's own shape succeeds. -/
theorem Tensor3.assignRows_returns {x y : Tensor3 α} (h0 : y.d0 = sliceLen x.d0 start stop)
    (h1 : y.d1 = x.d1) (h2 : y.d2 = x.d2) : ∃ z, x.assignRows start stop y = some z :=
  ⟨_, if_pos ⟨Or.inl h0, Or.inl h1, Or.inl h2⟩⟩

/-- Inside the slice the assigned tensor is read, outside the old one. -/
theorem Tensor3.assignRows_get {x y z : Tensor3 α} (h : x.assignRows start stop y = some z)
    (t i d : ℕ) :
    z.get t i d = if start ≤ t ∧ t < stop then
      y.get (bcast y.d0 (t - start)) (bcast y.d1 i) (bcast y.d2 d) else x.get t i d := by
  unfold Tensor3.assignRows at h
  split at h
  · cases h
    rfl
  · cases h

theorem Tensor2.assignRows_shape {x y z : Tensor2 α} (h : x.assignRows start stop y = some z) :
    z.d0 = x.d0 ∧ z.d1 = x.d1 := by
  unfold Tensor2.assignRows at h
  split at h
  · cases h
    exact ⟨rfl, rfl⟩
  · cases h

theorem Tensor2.assignRows_returns {x y : Tensor2 α} (h0 : y.d0 = sliceLen x.d0 start stop)
    (h1 : y.d1 = x.d1) : ∃ z, x.assignRows start stop y = some z :=
  ⟨_, if_pos ⟨Or.inl h0, Or.inl h1⟩⟩

theorem Tensor2.assignRows_get {x y z : Tensor2 α} (h : x.assignRows start stop y = some z)
    (t i : ℕ) :
    z.get t i = if start ≤ t ∧ t < stop then
      y.get (bcast y.d0 (t - start)) (bcast y.d1 i) else x.get t i := by
  unfold Tensor2.assignRows at h
  split at h
  · cases h
    rfl
  · cases h

theorem Tensor3.assignHeads_eq_some {x y z : Tensor3 α} {n : ℕ}
    (h : x.assignHeads n y = some z) :
    Broadcasts y.d1 (min n x.d1) ∧ z.d0 = x.d0 ∧ z.d1 = x.d1 ∧ z.d2 = x.d2 ∧
    ∀ t i d, i < n → z.get t i d = y.get (bcast y.d0 t) (bcast y.d1 i) (bcast y.d2 d) := by
  unfold Tensor3.assignHeads at h
  split at h
  · next hshape =>
    cases h
    exact ⟨hshape.2.1, rfl, rfl, rfl, fun t i d hi => if_pos hi⟩
  · cases h

end Assign

/-! ### Row-major indices -/

/-- Folding the first two dimensions into one keeps the last index. -/
theorem Tensor3.reshape2_fold {x : Tensor3 α} {m : ℕ} (h : x.d0 * x.d1 * x.d2 = m * x.d2) :
    ∃ y, x.reshape2 m x.d2 = some y ∧ y.d0 = m ∧ y.d1 = x.d2 ∧
      ∀ i, ∀ j < x.d2, y.get i j = x.get (i / x.d1) (i % x.d1) j := by
  refine ⟨_, if_pos h, rfl, rfl, ?_⟩
  intro i j hj
  have houter : (i * x.d2 + j) / (x.d1 * x.d2) = i / x.d1 := by
    rw [Nat.mul_comm x.d1, ← Nat.div_div_eq_div_mul, Enumeration.digits_div i hj]
  show x.get ((i * x.d2 + j) / (x.d1 * x.d2)) ((i * x.d2 + j) / x.d2 % x.d1)
    ((i * x.d2 + j) % x.d2) = _
  rw [houter, Enumeration.digits_div i hj, Nat.mul_add_mod_of_lt hj]

end TensorShape
