import TileCompositor.Proofs.Color.Composition
/-!
# Straight against premultiplied compositing

Premultiplied colours are laid over each other without a quotient. For straight
ones the same weighted sum is divided by the new alpha, and premultiplying the
result multiplies by that alpha again. Since no weighted sum passes the alpha,
the quotient is at most one, where a rounding is off by 2^-24 at most; this
holds for the least alphas as well, because the error of the quotient is made
smaller again by the alpha that it is multiplied by. Where the new alpha is
zero nothing is divided, and the weighted sums are zero too.

Results:
* `abs_nearest_div_mul_sub_le`: a quotient by an alpha, multiplied by it again.
* `near_mix_mul`, `near_clear_mul`: a channel that went through the quotient, and one that did not.
* `premultiply_sourceOver`: the two ways give the same alpha and close channels.
-/
namespace TileCompositor
open Binary32

namespace Color

section Channels
variable {p q s d n a : ℚ} {x y z w : Float32}

/-- Neither the quotient nor the product is above one, so each of them is
rounded by 2^-24 at most. -/
theorem abs_nearest_div_mul_sub_le (h0 : 0 ≤ n) (hle : n ≤ a) (hpos : 0 < a) (h1 : a ≤ 1) :
    |nearest (nearest (n / a) * a) - n| ≤ 2 ^ (-23 : ℤ) := by
  have hunit : 0 ≤ n / a ∧ n / a ≤ 1 := ⟨div_nonneg h0 hpos.le, (div_le_one hpos).mpr hle⟩
  have hquot := abs_nearest_sub_le_of_unit hunit.1 hunit.2
  have hback : nearest (n / a) * a - n = (nearest (n / a) - n / a) * a := by
    field_simp
  have hscaled : |nearest (n / a) * a - n| ≤ 2 ^ (-24 : ℤ) := by
    rw [hback, abs_mul, abs_of_pos hpos]
    exact (mul_le_of_le_one_right (abs_nonneg _) h1).trans hquot
  have hprod : |nearest (nearest (n / a) * a) - nearest (n / a) * a| ≤ 2 ^ (-24 : ℤ) :=
    abs_nearest_sub_le_of_unit (mul_nonneg (nearest_nonneg hunit.1) hpos.le)
      (mul_le_one₀ (nearest_le representable_one hunit.2) hpos.le h1)
  calc |nearest (nearest (n / a) * a) - n|
      ≤ |nearest (nearest (n / a) * a) - nearest (n / a) * a| + |nearest (n / a) * a - n| :=
        abs_sub_le _ _ _
    _ ≤ 2 ^ (-24 : ℤ) + 2 ^ (-24 : ℤ) := add_le_add hprod hscaled
    _ = 2 ^ (-23 : ℤ) := by norm_num

/-- A straight channel, premultiplied, is close to the weighted sum. -/
theorem near_mix_mul (hx : DenotesUnit x p) (hy : DenotesUnit y q) (hz : Scalar.InUnit z)
    (hw : Scalar.InUnit w) (hpos : 0 < overAlpha p q) :
    ∃ n, Binary32.Denotes (z * x + w * y * (1.0 - x)) n ∧
      Near ((z * x + w * y * (1.0 - x)) / (x + y * (1.0 - x)) * (x + y * (1.0 - x))) n
        (2 ^ (-22 : ℤ)) := by
  obtain ⟨s, hz⟩ := inUnit_iff.mp hz
  obtain ⟨d, hw⟩ := inUnit_iff.mp hw
  have hsum := denotesUnit_sum hx hy hz hw
  have halpha := denotesUnit_alpha hx hy
  have hle := overSum_le hx hy hz hw
  have herr := abs_nearest_div_mul_sub_le hsum.nonneg hle hpos halpha.le_one
  exact ⟨_, hsum.denotes, _, ((hsum.div halpha hpos hle).mul halpha).denotes,
    herr.trans (by norm_num)⟩

/-- Without alpha there is no weighted sum, and nothing is shown. -/
theorem near_clear_mul (hx : DenotesUnit x p) (hy : DenotesUnit y q) (hz : Scalar.InUnit z)
    (hw : Scalar.InUnit w) (h : overAlpha p q ≤ 0) :
    ∃ n, Binary32.Denotes (z * x + w * y * (1.0 - x)) n ∧ Near (0.0 * 0.0) n (2 ^ (-22 : ℤ)) := by
  obtain ⟨s, hz⟩ := inUnit_iff.mp hz
  obtain ⟨d, hw⟩ := inUnit_iff.mp hw
  have hsum := denotesUnit_sum hx hy hz hw
  have hzero : overSum p q s d = 0 := le_antisymm ((overSum_le hx hy hz hw).trans h) hsum.nonneg
  exact ⟨0, hzero ▸ hsum.denotes, (denotes_mul_zero denotes_zero denotes_zero).near.mono (by norm_num)⟩

end Channels

variable {src dst : Color}

/-- Straight colours between zero and one, laid over each other and then
premultiplied, have the alpha of the premultiplied colours laid over each
other, and channels that differ from theirs by 2^-22 at most. -/
theorem premultiply_sourceOver (hs : src.InUnit) (hd : dst.InUnit) :
    ((src.sourceOver dst).premultiply.a ==
      (src.premultiply.premultipliedOver dst.premultiply).a) = true ∧
    (src.sourceOver dst).premultiply.Close (src.premultiply.premultipliedOver dst.premultiply)
      (2 ^ (-22 : ℤ)) := by
  obtain ⟨p, hp⟩ := inUnit_iff.mp hs.a
  obtain ⟨q, hq⟩ := inUnit_iff.mp hd.a
  have halpha := denotesUnit_alpha hp hq
  by_cases h : src.a + dst.a * (1.0 - src.a) ≤ 0.0
  · -- the sum of the weights is zero, and so is every channel of either result
    have hle : overAlpha p q ≤ 0 := (halpha.denotes.le_iff denotes_zero).mp h
    have hzero : Binary32.Denotes (src.a + dst.a * (1.0 - src.a)) 0 :=
      le_antisymm hle halpha.nonneg ▸ halpha.denotes
    have htransparent : src.sourceOver dst = transparent := if_pos h
    rw [htransparent]
    exact ⟨denotes_zero.beq hzero, near_clear_mul hp hq hs.r hd.r hle,
      near_clear_mul hp hq hs.g hd.g hle, near_clear_mul hp hq hs.b hd.b hle,
      0, hzero, denotes_zero.near.mono (by norm_num)⟩
  · have hpos := overAlpha_pos hp hq h
    rw [sourceOver_of_pos h]
    exact ⟨halpha.denotes.beq halpha.denotes, near_mix_mul hp hq hs.r hd.r hpos,
      near_mix_mul hp hq hs.g hd.g hpos, near_mix_mul hp hq hs.b hd.b hpos,
      _, halpha.denotes, halpha.denotes.near.mono (by norm_num)⟩

/-- A colour whose alpha is the second least value, 2^-148. -/
def faintSource : Color := ⟨0.75, 0.25, 1.0, Float32.ofBits 2⟩

/-- A colour whose alpha is the least value, 2^-149. -/
def faintBackdrop : Color := ⟨0.5, 1.0, 0.0, Float32.ofBits 1⟩

/-- Here the weighted sums are one or two times the least value, alpha is three
times that, and the quotients are thirds. -/
theorem premultiply_faintSource :
    faintSource.InUnit ∧ faintBackdrop.InUnit ∧
    ((faintSource.sourceOver faintBackdrop).premultiply.a ==
      (faintSource.premultiply.premultipliedOver faintBackdrop.premultiply).a) = true ∧
    (faintSource.sourceOver faintBackdrop).premultiply.Close
      (faintSource.premultiply.premultipliedOver faintBackdrop.premultiply) (2 ^ (-22 : ℤ)) := by
  have hs : faintSource.InUnit := by decide
  have hd : faintBackdrop.InUnit := by decide
  exact ⟨hs, hd, premultiply_sourceOver hs hd⟩

end Color

end TileCompositor
