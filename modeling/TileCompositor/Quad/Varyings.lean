import TileCompositor.Color.Basic
import TileCompositor.Geometry.Clip
import TileCompositor.Tables.Tile
/-!
# What vertices hand to fragments

`Varyings` belong to a vertex and are interpolated across a triangle.
`FlatVaryings` belong to an instance and are the same for all its fragments.
-/
namespace TileCompositor

structure Varyings where
  /-- Position after the transform of the instance, on the device pixel grid.
  Clip regions are tested there. -/
  worldPosition : Vec2 := {}
  /-- Position relative to the origin of the rectangle of the instance. -/
  localPosition : Vec2 := {}
  color : Color := {}
  colorUv : Vec2 := {}
  maskUv : Vec2 := {}
deriving DecidableEq, Inhabited

structure FlatVaryings where
  border : Rect := {}
  borderRadii : CornerRadii := {}
  sourceSize : Vec2 := {}
  targetSize : Vec2 := {}
  blurRadius : Float32 := 0.0
  aux : UInt32 := 0
  tile : TileParams := .unbounded
  clipIn : ClipRect := .empty
  clipOut : ClipRect := .empty
  borderCornerMode : Bool := false
deriving DecidableEq, Inhabited

/-- Barycentric weights; the weight of a vertex is 1 at the vertex and 0 on
the opposite edge. -/
structure Weights where
  a : Float32
  b : Float32
  c : Float32
deriving DecidableEq

/-- The value with weights `w` between the values `a`, `b` and `c` of the
vertices. It is taken relative to the first vertex, so that three equal finite
values give exactly that value for all finite weights.
mirrors `barycentric`, vertex/varyings:28-31 -/
def Weights.mix (w : Weights) (a b c : Float32) : Float32 :=
  a + (b - a) * w.b + (c - a) * w.c

/-- mirrors `barycentric`, vertex/varyings:24-27 -/
def Weights.mixVec2 (w : Weights) (a b c : Vec2) : Vec2 :=
  ⟨w.mix a.x b.x c.x, w.mix a.y b.y c.y⟩

def Weights.mixColor (w : Weights) (a b c : Color) : Color :=
  ⟨w.mix a.r b.r c.r, w.mix a.g b.g c.g, w.mix a.b b.b c.b, w.mix a.a b.a c.a⟩

/-- The varyings with weights `w` between those of three vertices.
mirrors `barycentric`, vertex/varyings:23-39 -/
def Varyings.interpolate (a b c : Varyings) (w : Weights) : Varyings where
  worldPosition := w.mixVec2 a.worldPosition b.worldPosition c.worldPosition
  localPosition := w.mixVec2 a.localPosition b.localPosition c.localPosition
  color := w.mixColor a.color b.color c.color
  colorUv := w.mixVec2 a.colorUv b.colorUv c.colorUv
  maskUv := w.mixVec2 a.maskUv b.maskUv c.maskUv

end TileCompositor
