import TileCompositor.Proofs.Binary32.Extended
import TileCompositor.Proofs.Color.Composition
import TileCompositor.Shading.Pass
/-!
# What a clipped fragment does to its pixel

A fragment outside its clip region is shaded and blended like any other, with
a clip mask of zero. The gradient pass scales every channel by the mask, so
nothing is left of its colour; the passes with straight alpha scale alpha
alone and keep the other channels. What that means for the pixel depends on
the blend mode.

Results:
* `shade_of_inside`: a mask of one leaves the colour of the pass.
* `shade_of_clipped`: what a mask of zero leaves.
* `blend_of_clipped`: the pixel after the blend.
-/
namespace TileCompositor
open Binary32

/-- The passes that scale alpha alone by the clip mask. -/
def Pass.isStraight : Pass → Bool
  | .color | .text .. => true
  | .gradient .. => false

/-- The colour of a fragment before the clip mask is applied. -/
def Pass.unclipped (pass : Pass) (f : FragmentInput) : Option Color :=
  match pass with
  | .color => some f.varyings.color
  | .text mask sampler =>
    some (f.varyings.color.scaleAlpha (mask.sample f.varyings.maskUv sampler))
  | .gradient ramps dithering => do
    let field := GradientField.ofFlat f.flat
    let offset ← field.offsetAt f.varyings.localPosition
    let color ← (ramps.sample field.rampRow offset field.extend).toOption
    return if dithering then color.dither f.coord else color

namespace Pass

/-! ## Shading -/

variable {pass : Pass} {f : FragmentInput}

/-- A fragment is inside its clip region or outside. -/
theorem clipMask_cases (f : FragmentInput) : f.clipMask = 1.0 ∨ f.clipMask = 0.0 := by
  unfold FragmentInput.clipMask clipMask
  split
  · exact .inl rfl
  · exact .inr rfl

theorem shade_gradient (ramps : GradientRamps) (dithering : Bool) (f : FragmentInput) :
    (Pass.gradient ramps dithering).shade f =
      ((Pass.gradient ramps dithering).unclipped f).map fun color => color.scale f.clipMask := by
  simp only [shade, unclipped]
  cases (GradientField.ofFlat f.flat).offsetAt f.varyings.localPosition with
  | none => rfl
  | some offset =>
    simp only [bind, Option.bind]
    cases (ramps.sample (GradientField.ofFlat f.flat).rampRow offset
      (GradientField.ofFlat f.flat).extend).toOption <;> rfl

/-- Inside its clip region a fragment has the colour that the pass gives it. -/
theorem shade_of_inside (h : f.clipMask = 1.0) : pass.shade f = pass.unclipped f := by
  cases pass with
  | color => simp only [shade, unclipped, Color.scaleAlpha, h, mul_one_eq]
  | text mask sampler => simp only [shade, unclipped, h, mul_one_eq]
  | gradient ramps dithering =>
    rw [shade_gradient, h]
    simp only [Color.scale, mul_one_eq, Option.map_id']

/-- What the passes leave of a colour outside the clip region: alpha zero, and
zero in the other channels too unless the pass keeps them. -/
structure ClippedFrom (pass : Pass) (plain color : Color) : Prop where
  isFinite : color.isFinite = true
  alpha : (color.a == 0.0) = true
  straight : pass.isStraight = true → color.r = plain.r ∧ color.g = plain.g ∧ color.b = plain.b
  scaled : pass.isStraight = false →
    (color.r == 0.0) = true ∧ (color.g == 0.0) = true ∧ (color.b == 0.0) = true

theorem mul_zero_of_isFinite {x : Float32} (h : x.isFinite = true) :
    (x * 0.0).isFinite = true ∧ (x * 0.0 == 0.0) = true := by
  obtain ⟨p, hp⟩ := isFinite_iff.mp h
  have hmul : Denotes (x * 0.0) 0 := denotes_mul_zero hp denotes_zero
  exact ⟨hmul.isFinite, hmul.beq denotes_zero⟩

theorem shade_of_clipped (h : f.clipMask = 0.0) {plain : Color} (hplain : pass.unclipped f = some plain)
    (hfinite : plain.isFinite = true) :
    ∃ color, pass.shade f = some color ∧ pass.ClippedFrom plain color := by
  obtain ⟨hr, hg, hb, ha⟩ := Color.isFinite_iff.mp hfinite
  cases pass with
  | color =>
    obtain rfl := Option.some.inj hplain
    obtain ⟨hfin, hzero⟩ := mul_zero_of_isFinite ha
    refine ⟨f.varyings.color.scaleAlpha 0.0, by rw [shade, h], ?_⟩
    exact ⟨Color.isFinite_iff.mpr ⟨hr, hg, hb, hfin⟩, hzero, fun _ => ⟨rfl, rfl, rfl⟩, nofun⟩
  | text mask sampler =>
    obtain rfl := Option.some.inj hplain
    -- the mask sample is finite because its product with alpha is
    obtain ⟨p, q, hp, hq, -⟩ := operands_of_mul ha
    have hmul : Denotes (f.varyings.color.a * (mask.sample f.varyings.maskUv sampler * 0.0)) 0 :=
      denotes_mul_zero hp (denotes_mul_zero hq denotes_zero)
    refine ⟨f.varyings.color.scaleAlpha (mask.sample f.varyings.maskUv sampler * 0.0),
      by rw [shade, h], ?_⟩
    exact ⟨Color.isFinite_iff.mpr ⟨hr, hg, hb, hmul.isFinite⟩, hmul.beq denotes_zero,
      fun _ => ⟨rfl, rfl, rfl⟩, nofun⟩
  | gradient ramps dithering =>
    obtain ⟨hfinr, hzr⟩ := mul_zero_of_isFinite hr
    obtain ⟨hfing, hzg⟩ := mul_zero_of_isFinite hg
    obtain ⟨hfinb, hzb⟩ := mul_zero_of_isFinite hb
    obtain ⟨hfina, hza⟩ := mul_zero_of_isFinite ha
    refine ⟨plain.scale 0.0, by rw [shade_gradient, hplain, h]; rfl, ?_⟩
    exact ⟨Color.isFinite_iff.mpr ⟨hfinr, hfing, hfinb, hfina⟩, hza, nofun, fun _ => ⟨hzr, hzg, hzb⟩⟩

/-! ## Blending -/

/-- A clipped fragment in front of a pixel that is not fully transparent.
Alpha stays as it is. Source over, the other channels are multiplied by
alpha and divided by it again, which changes nothing over an opaque pixel and
the last digit at most where the product is not too small. With premultiplied
alpha the gradient pass changes nothing, while the passes with straight alpha
add the channels of their colour. -/
theorem blend_of_clipped {plain dst : Color} (h : f.clipMask = 0.0)
    (hplain : pass.unclipped f = some plain) (hfinite : plain.isFinite = true) (hdst : dst.InUnit)
    (hpos : 0.0 < dst.a) :
    ∃ color, pass.shade f = some color ∧
      (BlendMode.sourceOver.blend color dst == dst.premultiply.straighten) = true ∧
      (dst.a = 1.0 → (BlendMode.sourceOver.blend color dst == dst) = true) ∧
      (∀ channel ∈ [Color.r, Color.g, Color.b], Scalar.leastNormal ≤ channel dst * dst.a →
        Adjacent (channel (BlendMode.sourceOver.blend color dst)) (channel dst)) ∧
      (pass.isStraight = false → (BlendMode.premultipliedOver.blend color dst == dst) = true) ∧
      (pass.isStraight = true → BlendMode.premultipliedOver.blend color dst =
        ⟨plain.r + dst.r, plain.g + dst.g, plain.b + dst.b, dst.a⟩) := by
  obtain ⟨color, hshade, hclip⟩ := shade_of_clipped h hplain hfinite
  have hover : (color.sourceOver dst == dst.premultiply.straighten) = true :=
    Color.sourceOver_of_clear hclip.isFinite hclip.alpha hdst hpos
  have hpre : color.premultipliedOver dst =
      ⟨color.r + dst.r, color.g + dst.g, color.b + dst.b, dst.a⟩ :=
    Color.premultipliedOver_of_clear hclip.alpha hdst.a hpos
  have keep {x w : Float32} (hx : (x == 0.0) = true) (hw : Scalar.InUnit w) : (x + w == w) = true := by
    obtain ⟨d, hd⟩ := inUnit_iff.mp hw
    exact (denotes_zero_add (denotes_zero.of_beq hx) hd.denotes).beq hd.denotes
  refine ⟨color, hshade, hover, ?_, ?_, ?_, ?_⟩
  · intro hone
    have hopaque : dst.IsOpaque := ⟨hdst, hone⟩
    exact BEq.trans hover hopaque.straighten_premultiply
  · exact Color.adjacent_sourceOver_of_clear hclip.isFinite hclip.alpha hdst hpos
  · intro hscaled
    obtain ⟨hr, hg, hb⟩ := hclip.scaled hscaled
    obtain ⟨q, hq⟩ := inUnit_iff.mp hdst.a
    rw [BlendMode.blend, hpre, Color.beq_iff]
    exact ⟨keep hr hdst.r, keep hg hdst.g, keep hb hdst.b, hq.denotes.beq hq.denotes⟩
  · intro hstraight
    obtain ⟨hr, hg, hb⟩ := hclip.straight hstraight
    rw [BlendMode.blend, hpre, hr, hg, hb]

/-- A white fragment that the empty region clips away. -/
def clippedWhite : FragmentInput where
  coord := {}
  varyings := { color := Color.white }
  flat := {}

/-- White is added to a premultiplied pixel. -/
theorem blend_clippedWhite :
    ∃ color, Pass.color.shade clippedWhite = some color ∧
      BlendMode.premultipliedOver.blend color ⟨0.25, 0.5, 0.0, 0.5⟩ = ⟨1.25, 1.5, 1.0, 0.5⟩ := by
  have hmask : clippedWhite.clipMask = 0.0 := by decide +kernel
  have hfinite : Color.white.isFinite = true := by decide +kernel
  have hdst : (Color.mk 0.25 0.5 0.0 0.5).InUnit := by decide +kernel
  have hplain : Pass.color.unclipped clippedWhite = some Color.white := rfl
  obtain ⟨color, hshade, -, -, -, -, hadd⟩ :=
    blend_of_clipped hmask hplain hfinite hdst (by decide +kernel)
  refine ⟨color, hshade, ?_⟩
  rw [hadd rfl]
  decide +kernel

/-- Neither blend mode keeps every translucent pixel: source over, the last
digit of a channel changes, and with premultiplied alpha white is added. -/
theorem clippedWhite_changes_pixel :
    clippedWhite.clipMask = 0.0 ∧ Pass.color.unclipped clippedWhite = some Color.white ∧
      Color.white.isFinite = true ∧
      ((Color.mk 0.8 0.8 0.8 0.8).InUnit ∧
        ((Pass.color.shade clippedWhite).map fun color =>
          BlendMode.sourceOver.blend color ⟨0.8, 0.8, 0.8, 0.8⟩ == ⟨0.8, 0.8, 0.8, 0.8⟩) = some false) ∧
      (Color.mk 0.25 0.5 0.0 0.5).InUnit ∧
        ((Pass.color.shade clippedWhite).map fun color =>
          BlendMode.premultipliedOver.blend color ⟨0.25, 0.5, 0.0, 0.5⟩ == ⟨0.25, 0.5, 0.0, 0.5⟩) =
          some false := by
  decide +kernel

end Pass

end TileCompositor
