import TileCompositor.Color.Dither
import TileCompositor.Gradient.Field
import TileCompositor.Gradient.Ramp
import TileCompositor.Texture.Alpha
/-!
# Fragment passes

A pass gives each fragment of an instance its colour, or discards it. Before
the fragments of an instance are shaded, `Pass.validate` checks what the pass
itself looks up. Every pass applies the clip mask: the passes that work with
straight alpha scale alpha alone, the gradient pass scales every channel.
-/
namespace TileCompositor

/-- What a pass sees of one covered pixel. -/
structure FragmentInput where
  /-- The centre of the pixel. -/
  coord : Vec2
  varyings : Varyings
  flat : FlatVaryings

/-- The clip mask at the world position of the fragment.
mirrors `clip_mask`, fragment/mod:52-54 -/
def FragmentInput.clipMask (f : FragmentInput) : Float32 :=
  TileCompositor.clipMask f.varyings.worldPosition f.flat.clipIn f.flat.clipOut

inductive Pass where
  /-- The interpolated colour. -/
  | color
  /-- The interpolated colour, its alpha scaled by a mask. -/
  | text (mask : AlphaTexture) (sampler : Sampler)
  /-- A tiled linear gradient. -/
  | gradient (ramps : GradientRamps) (dithering : Bool)

namespace Pass

/-- The name of the pass in log lines. -/
def name : Pass → String
  | .color => "debug color"
  | .text .. => "text"
  | .gradient .. => "linear gradient"

/-- Whether the ramp that the instance refers to is there. The other passes
look nothing up.
mirrors `validate`, fragment/mod:39-41, and `validate`, fragment/gradient:122-124 -/
def validate (pass : Pass) (flat : FlatVaryings) : Except OutOfRange Unit :=
  match pass with
  | .color | .text .. => .ok ()
  | .gradient ramps _ => (ramps.row (GradientAux.decode flat.aux).rampRow).map fun _ => ()

/-- The colour of a fragment, or none if it is discarded.
mirrors `shade`, fragment/text:18-20 and 45-48, fragment/gradient:126-135 -/
def shade (pass : Pass) (f : FragmentInput) : Option Color :=
  match pass with
  | .color => some (f.varyings.color.scaleAlpha f.clipMask)
  | .text mask sampler =>
    some (f.varyings.color.scaleAlpha (mask.sample f.varyings.maskUv sampler * f.clipMask))
  | .gradient ramps dithering => do
    let field := GradientField.ofFlat f.flat
    let offset ← field.offsetAt f.varyings.localPosition
    let color ← (ramps.sample field.rampRow offset field.extend).toOption
    let color := if dithering then color.dither f.coord else color
    return color.scale f.clipMask

end Pass

end TileCompositor
