import TileCompositor.Gradient.Ramp
import TileCompositor.Tables.Frame
import TileCompositor.Texture.Sampler
/-!
# Pipeline settings

What the builders of a scene and its drawing agree on.
-/
namespace TileCompositor

structure PipelineConfig where
  limits : TableLimits := {}
  /-- Colours in a row of the ramp store. -/
  rampWidth : Nat := 256
  /-- Rows of the ramp store; no more than an address reaches are used. -/
  rampRows : Nat := 128
  devicePixelRatio : Float32 := 1.0
  /-- How the text pass reads its mask. -/
  maskSampler : Sampler := {}
  /-- Whether gradients are dithered. -/
  dithering : Bool := false
deriving DecidableEq

/-- The store of ramps that the settings ask for.
mirrors `from_config`, fragment/ramp:31-33 -/
def GradientRamps.ofConfig (config : PipelineConfig) : Except RampError GradientRamps :=
  GradientRamps.new config.rampWidth config.rampRows

end TileCompositor
