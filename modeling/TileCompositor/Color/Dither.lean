import TileCompositor.Color.Basic
import TileCompositor.Geometry.Vector
/-!
# Ordered dithering

An 8 by 8 Bayer matrix indexed by the target pixel adds less than half an
eight-bit step of noise to red, green and blue, which breaks up the bands of
slow gradients once the target is quantised.
-/
namespace TileCompositor

/-- Two bits of the threshold of a cell from one bit of its coordinates. -/
def bayerDigit (x y : UInt32) : UInt32 := (((x ^^^ y) &&& 1) <<< 1) ||| (y &&& 1)

/-- The threshold of the cell at column `x` and row `y`, in `0 .. 63`: the
coordinates' bits interleaved, the lowest of them in front. Each threshold
occurs once in every 8 by 8 tile.
mirrors `bayer_index`, fragment/dither:14-25 -/
def bayerIndex (x y : UInt32) : UInt32 :=
  (bayerDigit x y <<< 4) ||| (bayerDigit (x >>> 1) (y >>> 1) <<< 2) ||| bayerDigit (x >>> 2) (y >>> 2)

/-- The noise at a target coordinate, between -1/512 and 1/512; its mean over
a tile is zero. Coordinates left of and above the target count as 0.
mirrors `dither_noise`, fragment/dither:29-33 -/
def ditherNoise (coord : Vec2) : Float32 :=
  let cell := bayerIndex (Scalar.maxNum coord.x 0.0).toUInt32 (Scalar.maxNum coord.y 0.0).toUInt32
  let normalized := (cell.toFloat32 + 0.5) / 64.0
  (normalized - 0.5) / 256.0

/-- The colour with the noise of the coordinate added to all channels but
alpha.
mirrors `dither`, fragment/dither:37-40 -/
def Color.dither (c : Color) (coord : Vec2) : Color :=
  let n := ditherNoise coord
  ⟨c.r + n, c.g + n, c.b + n, c.a⟩

end TileCompositor
