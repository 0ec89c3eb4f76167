import TileCompositor.Color.Basic
import TileCompositor.Proofs.Binary32.Error
import TileCompositor.Proofs.Binary32.Order
import TileCompositor.Proofs.Scalar.Whole
/-!
# Channels as bytes

A channel is clamped, scaled to 255 and cut to a byte with one half added. Two roundings take part,
both of numbers below 256, so what is cut is within 2^-16 of what it would be without them. Hence
channels that are at most 1/256 apart, a little less than the width of a byte, give bytes that are at
most one apart, wherever they lie. NaN gives the byte 0, and so does whatever a channel is times zero.

Results:
* `quantize_near`: what is cut to a byte.
* `stepApart_quantize`: channels that are close to each other.
* `quantize_mul_zero`: channels that are masked out.
-/
namespace TileCompositor.Rgba8
open Binary32

/-- Bytes that differ by at most one. -/
def StepApart (a b : UInt8) : Prop := a.toNat ≤ b.toNat + 1 ∧ b.toNat ≤ a.toNat + 1

theorem StepApart.refl (a : UInt8) : StepApart a a := ⟨Nat.le_succ _, Nat.le_succ _⟩

variable {x y : Float32} {p q : ℚ}

/-- The exact place of a channel among the bytes. -/
def place (q : ℚ) : ℚ := min (max q 0) 1 * 255 + 1 / 2

theorem half_le_place_le (q : ℚ) : 1 / 2 ≤ place q ∧ place q ≤ 255 + 1 / 2 := by
  have h0 : 0 ≤ min (max q 0) 1 := le_min (le_max_right q 0) zero_le_one
  have h1 : min (max q 0) 1 ≤ 1 := min_le_right _ _
  unfold place
  constructor <;> linarith

theorem place_le_add {d : ℚ} (hd : 0 ≤ d) (h : q ≤ p + d) : place q ≤ place p + 255 * d := by
  have hraised : max q 0 ≤ max p 0 + d :=
    max_le (h.trans (by linarith [le_max_left p 0])) (by linarith [le_max_right p 0])
  have hclamped : min (max q 0) 1 ≤ min (max p 0) 1 + d := by
    rw [← min_add_add_right]
    exact min_le_min hraised (by linarith)
  unfold place
  linarith

/-- What is cut to a byte is close to the exact place. -/
theorem quantize_near (hx : Denotes x q) :
    ∃ v, (quantize x).toNat = min ⌊v⌋₊ 255 ∧ |v - place q| ≤ 1 / 2 ^ 16 := by
  have hclamp := Scalar.denotes_clamp hx denotes_zero denotes_one
  obtain ⟨hlo, hhi⟩ := half_le_place_le q
  unfold place at hlo hhi ⊢
  have hscaled : |min (max q 0) 1 * 255| ≤ 255 := abs_le.mpr ⟨by linarith, by linarith⟩
  have hplace : |min (max q 0) 1 * 255 + 1 / 2| ≤ 255 + 1 / 2 := abs_le.mpr ⟨by linarith, hhi⟩
  have hproduct := hclamp.near_mul denotes_255.near (k := 8) (by norm_num) (by norm_num)
    (by rw [mul_zero, add_zero]; exact hscaled.trans_lt (by norm_num))
  rw [mul_zero, zero_add] at hproduct
  obtain ⟨v, hv, herr⟩ := hproduct.add denotes_half.near (k := 8) (by norm_num) (by norm_num)
    (by rw [add_zero]; exact (add_le_add_left hplace _).trans_lt (by norm_num))
  exact ⟨v, hv.toNat_toUInt8, herr.trans_eq (by norm_num)⟩

/-- A channel that is at most 1/256 above another one is at most one byte above. -/
theorem quantize_le_succ (hx : Denotes x p) (hy : Denotes y q) (h : q ≤ p + 1 / 256) :
    (quantize y).toNat ≤ (quantize x).toNat + 1 := by
  obtain ⟨v, hv, hverr⟩ := quantize_near hx
  obtain ⟨w, hw, hwerr⟩ := quantize_near hy
  have hplace := place_le_add (by norm_num) h
  have hlow := (half_le_place_le p).1
  obtain ⟨hvlo, -⟩ := abs_le.mp hverr
  obtain ⟨-, hwhi⟩ := abs_le.mp hwerr
  have hle : w ≤ v + 1 := by norm_num at hvlo hwhi ⊢; linarith
  have hnonneg : 0 ≤ v := by norm_num at hvlo ⊢; linarith
  have hfloor : ⌊w⌋₊ ≤ ⌊v⌋₊ + 1 := by
    rw [← Nat.floor_add_one hnonneg]
    exact Nat.floor_le_floor hle
  omega

theorem stepApart_quantize (hx : Denotes x p) (hy : Denotes y q) (h : |q - p| ≤ 1 / 256) :
    StepApart (quantize x) (quantize y) := by
  obtain ⟨hlo, hhi⟩ := abs_le.mp h
  exact ⟨quantize_le_succ hy hx (by linarith), quantize_le_succ hx hy (by linarith)⟩

/-- NaN passes through the clamp and the arithmetic. -/
theorem quantize_of_isNaN (h : x.isNaN = true) : quantize x = 0 := by
  have hsum := isNaN_iff.mp (isNaN_add_left 0.5 (isNaN_mul_left 255.0 h))
  rw [quantize, clamp_of_isNaN h]
  show UInt8.ofNatClamp ((view (x * 255.0 + 0.5)).toInt 0 (UInt8.size - 1)).toNat = 0
  rw [hsum]
  rfl

theorem quantize_of_zero (hx : Denotes x 0) : quantize x = 0 := by
  obtain ⟨v, hv, herr⟩ := quantize_near hx
  have hplace : place 0 = 1 / 2 := by norm_num [place]
  obtain ⟨-, hhi⟩ := abs_le.mp herr
  rw [hplace] at hhi
  have hfloor : ⌊v⌋₊ = 0 := Nat.floor_eq_zero.mpr (by norm_num at hhi ⊢; linarith)
  rw [hfloor] at hv
  exact UInt8.toNat_inj.mp hv

/-- A channel times zero is the byte zero, be it a number or not. -/
theorem quantize_mul_zero (x : Float32) : quantize (x * 0.0) = 0 := by
  by_cases hx : x.isFinite = true
  · obtain ⟨q, hq⟩ := isFinite_iff.mp hx
    exact quantize_of_zero (denotes_mul_zero hq denotes_zero)
  · rw [mul_comm_eq]
    exact quantize_of_isNaN (isNaN_zero_mul denotes_zero (Bool.not_eq_true _ ▸ hx))

end TileCompositor.Rgba8
