import TileCompositor.Color.Blend
import TileCompositor.Proofs.Binary32.Neighbours
import TileCompositor.Proofs.Color.Numbers
/-!
# Colours laid over each other, as rounded

A source over a destination takes four products, three sums and a quotient,
each of them rounded. Rounding keeps order, so the weighted sum of two
channels does not pass the sum of the weights, and with channels between zero
and one the quotient is between zero and one again. Over an opaque
destination the weights add up to one exactly.

Results:
* `InUnit.sourceOver`: channels between zero and one stay there.
* `IsOpaque.sourceOver`: an opaque destination stays opaque.
* `sourceOver_of_clear`, `adjacent_sourceOver_of_clear`, `premultipliedOver_of_clear`:
  a source whose alpha is zero.
-/
namespace TileCompositor
open Binary32

namespace Color

/-- Every channel lies between zero and one, and alpha is one. -/
structure IsOpaque (c : Color) : Prop where
  inUnit : c.InUnit
  alpha : c.a = 1.0

/-! ## The weights -/

/-- The sum of the weights of a source and a destination with alpha `p` and `q`. -/
def overAlpha (p q : ℚ) : ℚ := nearest (p + nearest (q * nearest (1 - p)))

/-- The weighted sum of their channels `s` and `d`. -/
def overSum (p q s d : ℚ) : ℚ := nearest (nearest (s * p) + nearest (nearest (d * q) * nearest (1 - p)))

section Weights
variable {p q s d : ℚ} {x y z w : Float32}

theorem overAlpha_le_one (hx : DenotesUnit x p) (hy : DenotesUnit y q) : overAlpha p q ≤ 1 := by
  have hrest := hy.nearest_mul_le hx.one_sub
  calc overAlpha p q ≤ nearest (p + nearest (1 - p)) := nearest_mono (add_le_add_right hrest p)
    _ = 1 := nearest_add_nearest_sub hx.nonneg hx.le_one

/-- The weighted sum does not pass the sum of the weights. -/
theorem overSum_le (hx : DenotesUnit x p) (hy : DenotesUnit y q) (hz : DenotesUnit z s)
    (hw : DenotesUnit w d) : overSum p q s d ≤ overAlpha p q := by
  have hsource : nearest (s * p) ≤ p := hz.nearest_mul_le hx
  have hdest : nearest (d * q) ≤ q := hw.nearest_mul_le hy
  exact nearest_mono (add_le_add hsource
    (nearest_mono (mul_le_mul_of_nonneg_right hdest hx.one_sub.nonneg)))

theorem denotesUnit_alpha (hx : DenotesUnit x p) (hy : DenotesUnit y q) :
    DenotesUnit (x + y * (1.0 - x)) (overAlpha p q) :=
  hx.add (hy.mul hx.one_sub) (overAlpha_le_one hx hy)

/-- The branch that divides is taken for a positive sum of the weights. -/
theorem overAlpha_pos (hx : DenotesUnit x p) (hy : DenotesUnit y q)
    (h : ¬ x + y * (1.0 - x) ≤ 0.0) : 0 < overAlpha p q := by
  rwa [(denotesUnit_alpha hx hy).denotes.le_iff denotes_zero, not_le] at h

theorem denotesUnit_sum (hx : DenotesUnit x p) (hy : DenotesUnit y q) (hz : DenotesUnit z s)
    (hw : DenotesUnit w d) : DenotesUnit (z * x + w * y * (1.0 - x)) (overSum p q s d) :=
  (hz.mul hx).add ((hw.mul hy).mul hx.one_sub)
    ((overSum_le hx hy hz hw).trans (overAlpha_le_one hx hy))

/-- A mixed channel lies between zero and one. -/
theorem inUnit_mix (hx : DenotesUnit x p) (hy : DenotesUnit y q) (hz : Scalar.InUnit z)
    (hw : Scalar.InUnit w) (hpos : 0 < overAlpha p q) :
    Scalar.InUnit ((z * x + w * y * (1.0 - x)) / (x + y * (1.0 - x))) := by
  obtain ⟨s, hz⟩ := inUnit_iff.mp hz
  obtain ⟨d, hw⟩ := inUnit_iff.mp hw
  exact inUnit_iff.mpr ⟨_, (denotesUnit_sum hx hy hz hw).div (denotesUnit_alpha hx hy) hpos
    (overSum_le hx hy hz hw)⟩

end Weights

/-! ## Whole colours -/

variable {src dst : Color}

theorem sourceOver_of_pos (h : ¬ src.a + dst.a * (1.0 - src.a) ≤ 0.0) :
    src.sourceOver dst =
      ⟨(src.r * src.a + dst.r * dst.a * (1.0 - src.a)) / (src.a + dst.a * (1.0 - src.a)),
        (src.g * src.a + dst.g * dst.a * (1.0 - src.a)) / (src.a + dst.a * (1.0 - src.a)),
        (src.b * src.a + dst.b * dst.a * (1.0 - src.a)) / (src.a + dst.a * (1.0 - src.a)),
        src.a + dst.a * (1.0 - src.a)⟩ := if_neg h

theorem inUnit_transparent : transparent.InUnit := by decide

theorem InUnit.sourceOver (hs : src.InUnit) (hd : dst.InUnit) : (src.sourceOver dst).InUnit := by
  obtain ⟨p, hp⟩ := inUnit_iff.mp hs.a
  obtain ⟨q, hq⟩ := inUnit_iff.mp hd.a
  have halpha := denotesUnit_alpha hp hq
  by_cases h : src.a + dst.a * (1.0 - src.a) ≤ 0.0
  · have htransparent : src.sourceOver dst = transparent := if_pos h
    rw [htransparent]
    exact inUnit_transparent
  · have hpos := overAlpha_pos hp hq h
    rw [sourceOver_of_pos h]
    exact ⟨inUnit_mix hp hq hs.r hd.r hpos, inUnit_mix hp hq hs.g hd.g hpos,
      inUnit_mix hp hq hs.b hd.b hpos, inUnit_iff.mpr ⟨_, halpha⟩⟩

/-- Alpha is one again over an opaque destination, whatever the alpha of the source. -/
theorem alpha_sourceOver_opaque {p : ℚ} (hp : DenotesUnit src.a p) (hd : dst.a = 1.0) :
    (src.sourceOver dst).a = 1.0 := by
  have hone : overAlpha p 1 = 1 := by
    unfold overAlpha
    rw [one_mul, nearest_of_representable (nearest_representable _)]
    exact nearest_add_nearest_sub hp.nonneg hp.le_one
  have halpha : Binary32.Denotes (src.a + dst.a * (1.0 - src.a)) 1 := by
    have h := (denotesUnit_alpha hp (hd ▸ denotesUnit_one)).denotes
    rwa [hone] at h
  have hpos : ¬ src.a + dst.a * (1.0 - src.a) ≤ 0.0 := by
    rw [halpha.le_iff denotes_zero]
    norm_num
  rw [sourceOver_of_pos hpos]
  exact halpha.eq denotes_one one_ne_zero

theorem IsOpaque.sourceOver (hs : src.InUnit) (hd : dst.IsOpaque) : (src.sourceOver dst).IsOpaque := by
  obtain ⟨p, hp⟩ := inUnit_iff.mp hs.a
  exact ⟨hs.sourceOver hd.inUnit, alpha_sourceOver_opaque hp hd.alpha⟩

/-! ## Sources without alpha -/

/-- Premultiplied to straight alpha. -/
def straighten (c : Color) : Color := ⟨c.r / c.a, c.g / c.a, c.b / c.a, c.a⟩

section Clear
variable {x y z w : Float32} {q s d : ℚ}

theorem one_sub_of_clear (hx : Binary32.Denotes x 0) : 1.0 - x = 1.0 :=
  (denotes_one_sub_zero hx).eq denotes_one one_ne_zero

theorem alpha_of_clear (hx : Binary32.Denotes x 0) (hy : Binary32.Denotes y q) (hpos : 0 < q) :
    x + y * (1.0 - x) = y := by
  rw [one_sub_of_clear hx, mul_one_eq]
  exact (denotes_zero_add hx hy).eq hy hpos.ne'

/-- A source that weighs nothing adds nothing to a channel, but the channel is
multiplied and divided by its own alpha. -/
theorem mix_of_clear (hx : Binary32.Denotes x 0) (hy : DenotesUnit y q) (hz : Binary32.Denotes z s)
    (hw : DenotesUnit w d) (hpos : 0 < q) :
    ((z * x + w * y * (1.0 - x)) / (x + y * (1.0 - x)) == w * y / y) = true := by
  have hsum : Binary32.Denotes (z * x + w * y * 1.0) (nearest (d * q)) :=
    denotes_zero_add (denotes_mul_zero hz hx) (denotes_mul_one (hw.mul hy).denotes denotes_one)
  have hquot := (hw.mul_div hy hpos).denotes
  rw [alpha_of_clear hx hy.denotes hpos, one_sub_of_clear hx]
  exact (hsum.div hy.denotes hpos.ne' hquot.abs_lt).beq hquot

end Clear

/-- A source without alpha leaves what comes of multiplying the destination by
its alpha and dividing it again. -/
theorem sourceOver_of_clear (hs : src.isFinite = true) (h0 : (src.a == 0.0) = true)
    (hd : dst.InUnit) (hpos : 0.0 < dst.a) :
    (src.sourceOver dst == dst.premultiply.straighten) = true := by
  obtain ⟨q, hq⟩ := inUnit_iff.mp hd.a
  have hclear := denotes_zero.of_beq h0
  have hqpos : 0 < q := (denotes_zero.lt_iff hq.denotes).mp hpos
  have halpha := alpha_of_clear hclear hq.denotes hqpos
  have hnot : ¬ src.a + dst.a * (1.0 - src.a) ≤ 0.0 := by
    rw [halpha, hq.denotes.le_iff denotes_zero]
    exact not_le.mpr hqpos
  have hchannel {z w : Float32} (hz : z.isFinite = true) (hw : Scalar.InUnit w) :
      ((z * src.a + w * dst.a * (1.0 - src.a)) / (src.a + dst.a * (1.0 - src.a)) ==
        w * dst.a / dst.a) = true := by
    obtain ⟨s, hz⟩ := Binary32.isFinite_iff.mp hz
    obtain ⟨d, hw⟩ := inUnit_iff.mp hw
    exact mix_of_clear hclear hq hz hw hqpos
  obtain ⟨hr, hg, hb, -⟩ := isFinite_iff.mp hs
  rw [sourceOver_of_pos hnot, beq_iff]
  refine ⟨hchannel hr hd.r, hchannel hg hd.g, hchannel hb hd.b, ?_⟩
  rw [halpha]
  exact hq.denotes.beq hq.denotes

/-- It leaves each channel next to where it was, unless the product with alpha
is too small. -/
theorem adjacent_sourceOver_of_clear (hs : src.isFinite = true) (h0 : (src.a == 0.0) = true)
    (hd : dst.InUnit) (hpos : 0.0 < dst.a) :
    ∀ channel ∈ [Color.r, Color.g, Color.b], Scalar.leastNormal ≤ channel dst * dst.a →
      Adjacent (channel (src.sourceOver dst)) (channel dst) := by
  obtain ⟨hr, hg, hb, -⟩ := beq_iff.mp (sourceOver_of_clear hs h0 hd hpos)
  intro channel hmem hbig
  simp only [List.mem_cons, List.not_mem_nil, or_false] at hmem
  rcases hmem with rfl | rfl | rfl
  · exact (adjacent_mul_div hd.r hd.a hpos hbig).of_beq hr
  · exact (adjacent_mul_div hd.g hd.a hpos hbig).of_beq hg
  · exact (adjacent_mul_div hd.b hd.a hpos hbig).of_beq hb

/-- Multiplying and dividing by an alpha of one changes nothing. -/
theorem IsOpaque.straighten_premultiply {c : Color} (hc : c.IsOpaque) :
    (c.premultiply.straighten == c) = true := by
  have hchannel {w : Float32} (hw : Scalar.InUnit w) : (w * c.a / c.a == w) = true := by
    obtain ⟨d, hw⟩ := inUnit_iff.mp hw
    rw [hc.alpha, mul_one_eq]
    exact (denotes_div_one hw.denotes denotes_one).beq hw.denotes
  rw [beq_iff]
  refine ⟨hchannel hc.inUnit.r, hchannel hc.inUnit.g, hchannel hc.inUnit.b, ?_⟩
  change (c.a == c.a) = true
  rw [hc.alpha]
  exact denotes_one.beq denotes_one

instance : PartialEquivBEq Color where
  symm h := by
    obtain ⟨hr, hg, hb, ha⟩ := beq_iff.mp h
    exact beq_iff.mpr ⟨BEq.symm hr, BEq.symm hg, BEq.symm hb, BEq.symm ha⟩
  trans h h' := by
    obtain ⟨hr, hg, hb, ha⟩ := beq_iff.mp h
    obtain ⟨hr', hg', hb', ha'⟩ := beq_iff.mp h'
    exact beq_iff.mpr ⟨BEq.trans hr hr', BEq.trans hg hg', BEq.trans hb hb', BEq.trans ha ha'⟩

/-- A source without alpha leaves an opaque destination as it is. -/
theorem IsOpaque.sourceOver_of_clear (hs : src.InUnit) (h0 : (src.a == 0.0) = true)
    (hd : dst.IsOpaque) : (src.sourceOver dst == dst) = true := by
  have hpos : 0.0 < dst.a := by
    rw [hd.alpha, denotes_zero.lt_iff denotes_one]
    norm_num
  exact BEq.trans (Color.sourceOver_of_clear hs.isFinite h0 hd.inUnit hpos) hd.straighten_premultiply

/-- A premultiplied source without alpha is added to the destination. -/
theorem premultipliedOver_of_clear (h0 : (src.a == 0.0) = true) (hd : Scalar.InUnit dst.a)
    (hpos : 0.0 < dst.a) :
    src.premultipliedOver dst = ⟨src.r + dst.r, src.g + dst.g, src.b + dst.b, dst.a⟩ := by
  obtain ⟨q, hq⟩ := inUnit_iff.mp hd
  have hclear := denotes_zero.of_beq h0
  have hqpos : 0 < q := (denotes_zero.lt_iff hq.denotes).mp hpos
  have halpha := alpha_of_clear hclear hq.denotes hqpos
  rw [one_sub_of_clear hclear, mul_one_eq] at halpha
  simp only [premultipliedOver, one_sub_of_clear hclear, mul_one_eq, halpha]

end Color

end TileCompositor
