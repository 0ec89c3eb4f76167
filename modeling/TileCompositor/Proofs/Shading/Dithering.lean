import TileCompositor.Proofs.Color.Quantization
import TileCompositor.Proofs.Shading.Gaps
/-!
# What dithering does to bytes

The noise of a threshold `k` is `(2k - 63) / 2^15`, which every step to it gives exactly, so it stays
below 63/2^15 in magnitude at whatever coordinate it is taken. The sum of a channel and the noise is
rounded, and the channel itself is a value, so the sum is moved by at most twice the noise: by less
than 1/256, which is not enough for two bytes. An infinite channel and one that is NaN stay as they
are.

Results:
* `denotes_ditherNoise`: the noise.
* `Color.dithered_dither`, `Color.dithered_scale`: a colour, whole and masked.
* `Pass.dithering_within_step`: colours and the gradient pass.
-/
namespace TileCompositor
open Binary32

/-! ## Thresholds -/

theorem toNat_or_lt {a b : UInt32} {n : Nat} (ha : a.toNat < 2 ^ n) (hb : b.toNat < 2 ^ n) :
    (a ||| b).toNat < 2 ^ n := by
  rw [UInt32.toNat_or]
  exact Nat.or_lt_two_pow ha hb

theorem toNat_and_one_lt (a : UInt32) : (a &&& 1).toNat < 2 := by
  rw [UInt32.toNat_and]
  exact Nat.lt_succ_of_le Nat.and_le_right

/-- Shifted up by `k` places a number of `n` bits has `n + k`. -/
theorem toNat_shiftLeft_lt {a : UInt32} {n : Nat} (k : UInt32) (hk : k.toNat < 32) (ha : a.toNat < 2 ^ n) :
    (a <<< k).toNat < 2 ^ (n + k.toNat) := by
  rw [UInt32.toNat_shiftLeft, Nat.mod_eq_of_lt hk, Nat.shiftLeft_eq, Nat.pow_add]
  exact (Nat.mod_le _ _).trans_lt (Nat.mul_lt_mul_of_pos_right ha (Nat.two_pow_pos _))

theorem toNat_bayerDigit_lt (x y : UInt32) : (bayerDigit x y).toNat < 2 ^ 2 := by
  have hhigh := toNat_shiftLeft_lt (n := 1) 1 (by decide) (toNat_and_one_lt (x ^^^ y))
  exact toNat_or_lt hhigh ((toNat_and_one_lt y).trans (by decide))

theorem toNat_bayerIndex_lt (x y : UInt32) : (bayerIndex x y).toNat < 2 ^ 6 := by
  have hhigh := toNat_shiftLeft_lt 4 (by decide) (toNat_bayerDigit_lt x y)
  have hmiddle := toNat_shiftLeft_lt 2 (by decide) (toNat_bayerDigit_lt (x >>> 1) (y >>> 1))
  have hlow := toNat_bayerDigit_lt (x >>> 2) (y >>> 2)
  exact toNat_or_lt (toNat_or_lt hhigh (hmiddle.trans (by decide))) (hlow.trans (by decide))

/-! ## Noise -/

theorem denotes_64 : Denotes 64.0 64 :=
  denotes_of_view_eq (2 ^ 23) (-17) ⟨by decide, rfl⟩ (by norm_num)

theorem denotes_256 : Denotes 256.0 256 :=
  denotes_of_view_eq (2 ^ 23) (-15) ⟨by decide, rfl⟩ (by norm_num)

/-- No step to the noise is rounded. -/
theorem denotes_ditherNoise (coord : Vec2) :
    ∃ k : ℕ, k < 64 ∧ Denotes (ditherNoise coord) ((2 * k - 63) / 2 ^ 15) := by
  have hlt := toNat_bayerIndex_lt (Scalar.maxNum coord.x 0.0).toUInt32 (Scalar.maxNum coord.y 0.0).toUInt32
  unfold ditherNoise
  generalize bayerIndex (Scalar.maxNum coord.x 0.0).toUInt32 (Scalar.maxNum coord.y 0.0).toUInt32 = cell at *
  have hcell : Denotes cell.toFloat32 cell.toNat := denotes_toFloat32_of_le (by omega)
  have hmiddle := hcell.add_exact denotes_half
    (isValue_of_eq (2 * cell.toNat + 1) 1 (by push_cast; ring) (by rw [abs_le]; omega) (by norm_num))
  have hnormalized := hmiddle.div_exact denotes_64 (by norm_num)
    (isValue_of_eq (2 * cell.toNat + 1) 7 (by push_cast; ring) (by rw [abs_le]; omega) (by norm_num))
  have hcentred := hnormalized.sub_exact denotes_half
    (isValue_of_eq (2 * cell.toNat - 63) 7 (by push_cast; ring) (by rw [abs_le]; omega) (by norm_num))
  have hnoise := hcentred.div_exact denotes_256 (by norm_num)
    (isValue_of_eq (2 * cell.toNat - 63) 15 (by push_cast; ring) (by rw [abs_le]; omega) (by norm_num))
  have hvalue : (((cell.toNat : ℚ) + 1 / 2) / 64 - 1 / 2) / 256 = (2 * cell.toNat - 63) / 2 ^ 15 := by ring
  exact ⟨cell.toNat, hlt, hvalue ▸ hnoise⟩

/-- The noise is a number between -63/2^15 and 63/2^15, whatever the coordinate is. -/
theorem exists_denotes_ditherNoise (coord : Vec2) :
    ∃ q, Denotes (ditherNoise coord) q ∧ |q| ≤ 63 / 2 ^ 15 := by
  obtain ⟨k, hk, hnoise⟩ := denotes_ditherNoise coord
  refine ⟨_, hnoise, ?_⟩
  have h0 : (0 : ℚ) ≤ k := Nat.cast_nonneg k
  have h1 : (k : ℚ) ≤ 63 := by exact_mod_cast Nat.le_of_lt_succ hk
  rw [abs_le]
  constructor <;> linarith

/-! ## Channels -/

namespace Rgba8

theorem stepApart_dither (x : Float32) (coord : Vec2) :
    StepApart (quantize x) (quantize (x + ditherNoise coord)) := by
  obtain ⟨q, hnoise, hle⟩ := exists_denotes_ditherNoise coord
  by_cases hx : x.isFinite = true
  · obtain ⟨p, hp⟩ := isFinite_iff.mp hx
    obtain ⟨r, hr, hmoved⟩ := hp.near_add hnoise (hle.trans (by norm_num))
    exact stepApart_quantize hp hr (by linarith)
  · rw [add_of_not_isFinite (Bool.not_eq_true _ ▸ hx) hnoise]
    exact .refl _

/-- The bytes of a colour without dithering and with it. -/
structure Dithered (plain dithered : Rgba8) : Prop where
  r : StepApart plain.r dithered.r
  g : StepApart plain.g dithered.g
  b : StepApart plain.b dithered.b
  a : dithered.a = plain.a

end Rgba8

/-! ## Colours -/

namespace Color

theorem dithered_dither (c : Color) (coord : Vec2) : c.toRgba8.Dithered (c.dither coord).toRgba8 :=
  ⟨Rgba8.stepApart_dither _ _, Rgba8.stepApart_dither _ _, Rgba8.stepApart_dither _ _, rfl⟩

/-- A mask of one keeps the bytes, and after a mask of zero nothing is left of them. -/
theorem dithered_scale (c : Color) (coord : Vec2) {mask : Float32} (hmask : mask = 1.0 ∨ mask = 0.0) :
    (c.scale mask).toRgba8.Dithered ((c.dither coord).scale mask).toRgba8 := by
  rcases hmask with rfl | rfl
  · simp only [scale, mul_one_eq]
    exact dithered_dither c coord
  · simp only [scale, toRgba8, Rgba8.quantize_mul_zero]
    exact ⟨.refl 0, .refl 0, .refl 0, rfl⟩

end Color

/-! ## Passes -/

/-- Dithering changes a byte of red, green or blue by at most one, whatever the colour and the
coordinate are, and none of alpha. The gradient pass shades the same fragments with it and without,
with the same alpha and with bytes of the other channels that are at most one apart. -/
theorem Pass.dithering_within_step :
    (∀ (c : Color) (coord : Vec2), c.toRgba8.Dithered (c.dither coord).toRgba8) ∧
    ∀ (ramps : GradientRamps) (f : FragmentInput),
      Option.Rel (fun plain dithered => dithered.a = plain.a ∧ plain.toRgba8.Dithered dithered.toRgba8)
        ((Pass.gradient ramps false).shade f) ((Pass.gradient ramps true).shade f) := by
  refine ⟨Color.dithered_dither, fun ramps f => ?_⟩
  rw [shade_gradient, shade_gradient, unclipped_dithered]
  cases (Pass.gradient ramps false).unclipped f with
  | none => exact .none
  | some color => exact .some ⟨rfl, color.dithered_scale f.coord (clipMask_cases f)⟩

/-- Half of the range is where one byte ends and the next begins, and the first threshold leads back
across it. -/
example : Rgba8.quantize 0.5 = 128 ∧ Rgba8.quantize (0.5 + ditherNoise ⟨0.5, 0.5⟩) = 127 := by
  decide +kernel

end TileCompositor
