import TileCompositor.Proofs.Color.Composition
/-!
# Premultiplied colours

A premultiplied colour has no channel above its alpha. Where one is laid over
another, alpha is put together like the other channels: the source, and the
destination times the rounded rest of one. Rounding keeps order, so what was
not above alpha before is not above alpha afterwards, and the new alpha does
not pass one because a weight and the rest of one add up to one.

Results:
* `premultipliedSum_le`: a channel stays below alpha.
* `IsPremultiplied.premultipliedOver`: a premultiplied colour over another one.
-/
namespace TileCompositor
open Binary32

namespace Color

/-- No channel is below zero or above alpha, and alpha is not above one. -/
structure IsPremultiplied (c : Color) : Prop where
  r : 0.0 ≤ c.r ∧ c.r ≤ c.a
  g : 0.0 ≤ c.g ∧ c.g ≤ c.a
  b : 0.0 ≤ c.b ∧ c.b ≤ c.a
  a : Scalar.InUnit c.a

instance (c : Color) : Decidable c.IsPremultiplied :=
  decidable_of_iff ((0.0 ≤ c.r ∧ c.r ≤ c.a) ∧ (0.0 ≤ c.g ∧ c.g ≤ c.a) ∧ (0.0 ≤ c.b ∧ c.b ≤ c.a) ∧
      Scalar.InUnit c.a)
    ⟨fun ⟨r, g, b, a⟩ => ⟨r, g, b, a⟩, fun ⟨r, g, b, a⟩ => ⟨r, g, b, a⟩⟩

section Weights
variable {p q s d : ℚ} {x y z w : Float32}

/-- A channel that is not above alpha, as the number that it is. -/
theorem exists_below_alpha (hx : DenotesUnit x p) (hz : 0.0 ≤ z ∧ z ≤ x) :
    ∃ s, DenotesUnit z s ∧ s ≤ p := by
  obtain ⟨s, hs, h0, hle⟩ := exists_of_le_of_le denotes_zero hx.denotes hz.1 hz.2
  exact ⟨s, ⟨hs, h0, hle.trans hx.le_one⟩, hle⟩

/-- The sum of a source channel and what is left of a destination channel. -/
def premultipliedSum (p s d : ℚ) : ℚ := nearest (s + nearest (d * nearest (1 - p)))

/-- Channels below their alphas add up to a channel below the new alpha. -/
theorem premultipliedSum_le (hx : DenotesUnit x p) (hs : s ≤ p) (hd : d ≤ q) :
    premultipliedSum p s d ≤ overAlpha p q := by
  have hrest : nearest (d * nearest (1 - p)) ≤ nearest (q * nearest (1 - p)) :=
    nearest_mono (mul_le_mul_of_nonneg_right hd hx.one_sub.nonneg)
  exact nearest_mono (add_le_add hs hrest)

theorem between_premultiplied (hx : DenotesUnit x p) (hy : DenotesUnit y q) (hz : 0.0 ≤ z ∧ z ≤ x)
    (hw : 0.0 ≤ w ∧ w ≤ y) :
    0.0 ≤ z + w * (1.0 - x) ∧ z + w * (1.0 - x) ≤ x + y * (1.0 - x) := by
  obtain ⟨s, hz, hs⟩ := exists_below_alpha hx hz
  obtain ⟨d, hw, hd⟩ := exists_below_alpha hy hw
  have hle : premultipliedSum p s d ≤ overAlpha p q := premultipliedSum_le hx hs hd
  have hsum : DenotesUnit (z + w * (1.0 - x)) (premultipliedSum p s d) :=
    hz.add (hw.mul hx.one_sub) (hle.trans (overAlpha_le_one hx hy))
  constructor
  · exact (denotes_zero.le_iff hsum.denotes).mpr hsum.nonneg
  · exact (hsum.denotes.le_iff (denotesUnit_alpha hx hy).denotes).mpr hle

end Weights

theorem isPremultiplied_transparent : transparent.IsPremultiplied := by decide

theorem IsPremultiplied.premultipliedOver {src dst : Color} (hs : src.IsPremultiplied)
    (hd : dst.IsPremultiplied) : (src.premultipliedOver dst).IsPremultiplied := by
  obtain ⟨p, hp⟩ := inUnit_iff.mp hs.a
  obtain ⟨q, hq⟩ := inUnit_iff.mp hd.a
  constructor
  · exact between_premultiplied hp hq hs.r hd.r
  · exact between_premultiplied hp hq hs.g hd.g
  · exact between_premultiplied hp hq hs.b hd.b
  · exact inUnit_iff.mpr ⟨_, denotesUnit_alpha hp hq⟩

end Color

end TileCompositor
