import TileCompositor.Geometry.Vector
import TileCompositor.Scalar.Integral
import TileCompositor.Scalar.Order
/-!
# Colours

A colour is linear RGBA, with straight alpha unless a function says
otherwise. Channels are nominally in `[0, 1]`; only the conversion to bytes
clamps them.
-/
namespace TileCompositor

structure Color where
  r : Float32 := 0.0
  g : Float32 := 0.0
  b : Float32 := 0.0
  a : Float32 := 0.0
deriving BEq, DecidableEq, Inhabited

/-- A colour quantised to eight bits a channel. -/
structure Rgba8 where
  r : UInt8
  g : UInt8
  b : UInt8
  a : UInt8
deriving DecidableEq, Inhabited

/-- The quantised channel of `v`: clamped to `[0, 1]` and rounded to the
nearest of 256 steps. NaN gives 0.
mirrors `to_rgba8`, paint/color:43 -/
def Rgba8.quantize (v : Float32) : UInt8 :=
  (Scalar.clamp v 0.0 1.0 * 255.0 + 0.5).toUInt8

def Rgba8.toList (c : Rgba8) : List UInt8 := [c.r, c.g, c.b, c.a]

namespace Color

def transparent : Color := ⟨0.0, 0.0, 0.0, 0.0⟩
def black : Color := ⟨0.0, 0.0, 0.0, 1.0⟩
def white : Color := ⟨1.0, 1.0, 1.0, 1.0⟩
def red : Color := ⟨1.0, 0.0, 0.0, 1.0⟩

/-- Each byte as a fraction of 255.
mirrors `from_rgba8`, paint/color:26-28 -/
def ofRgba8 (c : Rgba8) : Color :=
  ⟨c.r.toFloat32 / 255.0, c.g.toFloat32 / 255.0, c.b.toFloat32 / 255.0, c.a.toFloat32 / 255.0⟩

/-- mirrors `to_rgba8`, paint/color:42-45 -/
def toRgba8 (c : Color) : Rgba8 :=
  ⟨Rgba8.quantize c.r, Rgba8.quantize c.g, Rgba8.quantize c.b, Rgba8.quantize c.a⟩

def toVec4 (c : Color) : Vec4 := ⟨c.r, c.g, c.b, c.a⟩

/-- mirrors `is_finite`, paint/color:48-50 -/
def isFinite (c : Color) : Bool :=
  c.r.isFinite && c.g.isFinite && c.b.isFinite && c.a.isFinite

/-- Alpha times `k`; the other channels stay.
mirrors `scale_alpha`, paint/color:54-56 -/
def scaleAlpha (c : Color) (k : Float32) : Color := { c with a := c.a * k }

/-- Every channel times `k`.
mirrors `scale`, paint/color:60-62 -/
def scale (c : Color) (k : Float32) : Color := ⟨c.r * k, c.g * k, c.b * k, c.a * k⟩

/-- The point at `t` on the way from `c` to `d`.
mirrors `lerp`, paint/color:66-73 -/
def lerp (c d : Color) (t : Float32) : Color where
  r := c.r + (d.r - c.r) * t
  g := c.g + (d.g - c.g) * t
  b := c.b + (d.b - c.b) * t
  a := c.a + (d.a - c.a) * t

end Color

end TileCompositor
