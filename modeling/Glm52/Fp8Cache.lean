import Glm52.SparseMlaKernels
import Mathlib.Tactic.IntervalCases

/-! # The `fp8_ds_mla` cache rows

A row is 656 bytes: 512 e4m3 values, four little-endian float32 scales (one for each
128 values), and 64 bfloat16 values.  `Fp8Cache.entry` is the decoded row: 512 scaled
NoPE values, then the 64 RoPE values.

The kernels load the bytes of a row under masks, with zero bytes where the mask is
off, and assemble a scale from its four bytes.  A lane of a valid slot reads the
decoded entry (`nopeLane_valid`, `ropeLane_valid`); the lanes of an invalid slot read
zeros. -/
namespace Glm52
open ExactFloat Softmax OnlineSoftmax

/-! ### Layout -/

def fp8dsNopeDim : ℕ := 512
def fp8dsRopeDim : ℕ := 64
def fp8dsQuantTile : ℕ := 128
def fp8dsNumScales : ℕ := fp8dsNopeDim / fp8dsQuantTile
def fp8dsEntryBytes : ℕ := fp8dsNopeDim + 4 * fp8dsNumScales + 2 * fp8dsRopeDim

/-- `scale_byte_off`. -/
def scaleByteOff : ℕ := fp8dsNopeDim

/-- `rope_byte_off`. -/
def ropeByteOff : ℕ := fp8dsNopeDim + 4 * fp8dsNumScales

/-- The flattened cache: `byte s o` is byte `o` of row `s`, for `s` below
`total_slots` and `o` below `fp8dsEntryBytes`. -/
structure Fp8Cache where
  totalSlots : ℕ
  byte : ℕ → ℕ → BitVec 8

/-! ### Number formats -/

/-- The number with exponent field `e` and mantissa field `m`, of a format with
`mantBits` mantissa bits; an exponent field of zero is a subnormal. -/
def fieldsValue (sign : Bool) (e m mantBits : ℕ) (bias : ℤ) : ℚ :=
  let mag := if e = 0 then (m : ℚ) / 2 ^ mantBits * 2 ^ (1 - bias)
    else (1 + (m : ℚ) / 2 ^ mantBits) * 2 ^ ((e : ℤ) - bias)
  if sign then -mag else mag

/-- `tl.float8e4nv`: no infinities, one NaN pattern. -/
def float8e4nv (b : BitVec 8) : ExactFloat ℚ :=
  let e := (b.extractLsb' 3 4).toNat
  let m := (b.extractLsb' 0 3).toNat
  if e = 15 ∧ m = 7 then nan else fin (fieldsValue b.msb e m 3 7)

/-- `tl.float32`. -/
def float32 (b : BitVec 32) : ExactFloat ℚ :=
  let e := (b.extractLsb' 23 8).toNat
  let m := (b.extractLsb' 0 23).toNat
  if e = 255 then if m = 0 then if b.msb then negInf else posInf else nan
  else fin (fieldsValue b.msb e m 23 127)

/-- `tl.bfloat16`: the upper half of a float32. -/
def bfloat16 (b : BitVec 16) : ExactFloat ℚ := float32 (b ++ 0#16)

/-- A decoded number among the reals. -/
noncomputable def toScalar : ExactFloat ℚ → Scalar := ExactFloat.map (fun x : ℚ => (x : ℝ))

/-! ### The decoded row -/

/-- Scale `j` of a row, little-endian. -/
def Fp8Cache.scale (cache : Fp8Cache) (s j : ℕ) : ExactFloat ℚ :=
  float32 (cache.byte s (512 + 4 * j + 3) ++ cache.byte s (512 + 4 * j + 2) ++
    cache.byte s (512 + 4 * j + 1) ++ cache.byte s (512 + 4 * j))

/-- NoPE value `d` of a row, dequantised. -/
noncomputable def Fp8Cache.nope (cache : Fp8Cache) (s d : ℕ) : Scalar :=
  toScalar (float8e4nv (cache.byte s d)) * toScalar (cache.scale s (d / 128))

/-- RoPE value `e` of a row, little-endian. -/
noncomputable def Fp8Cache.rope (cache : Fp8Cache) (s e : ℕ) : Scalar :=
  toScalar (bfloat16 (cache.byte s (528 + 2 * e + 1) ++ cache.byte s (528 + 2 * e)))

/-- Entry `d` of a decoded row. -/
noncomputable def Fp8Cache.entry (cache : Fp8Cache) (s d : ℕ) : Scalar :=
  if d < 512 then cache.nope s d else cache.rope s (d - 512)

/-! ### The kernels' loads -/

/-- `is_valid = (slot >= 0) & (slot < total_slots)`. -/
def validSlot (cache : Fp8Cache) (slot : ℤ) : Bool := 0 ≤ slot ∧ slot < cache.totalSlots

/-- `tl.load(base + off, mask, other=0)`, with `base` the row of `slot`. -/
def loadByte (cache : Fp8Cache) (slot : ℤ) (off : ℕ) (mask : Bool) : BitVec 8 :=
  if mask then cache.byte slot.toNat off else 0

/-- `(b0 & 0xFF) | ((b1 & 0xFF) << 8) | ((b2 & 0xFF) << 16) | ((b3 & 0xFF) << 24)`. -/
def scaleBits (b0 b1 b2 b3 : BitVec 8) : BitVec 32 :=
  (b0.setWidth 32 &&& 0xFF#32) ||| ((b1.setWidth 32 &&& 0xFF#32) <<< 8) |||
    ((b2.setWidth 32 &&& 0xFF#32) <<< 16) ||| ((b3.setWidth 32 &&& 0xFF#32) <<< 24)

/-- `fp8_vals * scale_f32` at NoPE dimension `d`. -/
noncomputable def nopeLane (cache : Fp8Cache) (slot : ℤ) (d : ℕ) (mask : Bool) : Scalar :=
  let fp8Val := float8e4nv (loadByte cache slot d mask)
  let scaleTile := d / fp8dsQuantTile
  let scaleByte := scaleByteOff + scaleTile * 4
  let b0 := loadByte cache slot (scaleByte + 0) mask
  let b1 := loadByte cache slot (scaleByte + 1) mask
  let b2 := loadByte cache slot (scaleByte + 2) mask
  let b3 := loadByte cache slot (scaleByte + 3) mask
  toScalar fp8Val * toScalar (float32 (scaleBits b0 b1 b2 b3))

/-- `tl.load(rope_ptr + e, mask, other=0.0)`, `rope_ptr` a pointer to bfloat16. -/
noncomputable def ropeLane (cache : Fp8Cache) (slot : ℤ) (e : ℕ) (mask : Bool) : Scalar :=
  if mask then
    toScalar (bfloat16 (cache.byte slot.toNat (ropeByteOff + 2 * e + 1) ++
      cache.byte slot.toNat (ropeByteOff + 2 * e)))
  else 0

theorem scaleBits_eq_append (b0 b1 b2 b3 : BitVec 8) :
    scaleBits b0 b1 b2 b3 = b3 ++ b2 ++ b1 ++ b0 := by
  apply BitVec.eq_of_getLsbD_eq
  intro i hi
  unfold scaleBits
  simp only [BitVec.getLsbD_or, BitVec.getLsbD_and, BitVec.getLsbD_shiftLeft,
    BitVec.getLsbD_setWidth, BitVec.getLsbD_append]
  interval_cases i <;> simp

theorem nopeLane_valid {cache : Fp8Cache} (slot : ℤ) (d : ℕ) :
    nopeLane cache slot d true = cache.nope slot.toNat d := by
  have hbyte : ∀ off, loadByte cache slot off true = cache.byte slot.toNat off := fun _ => rfl
  have hoff : ∀ j, scaleByteOff + d / fp8dsQuantTile * 4 + j = 512 + 4 * (d / 128) + j := by
    intro j
    rw [scaleByteOff, fp8dsNopeDim, fp8dsQuantTile, Nat.mul_comm]
  simp only [nopeLane, hbyte, hoff, scaleBits_eq_append, Fp8Cache.nope, Fp8Cache.scale,
    Nat.add_zero]

theorem ropeLane_valid {cache : Fp8Cache} (slot : ℤ) (e : ℕ) :
    ropeLane cache slot e true = cache.rope slot.toNat e := rfl

end Glm52
