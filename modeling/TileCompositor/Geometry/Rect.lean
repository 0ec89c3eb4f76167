import TileCompositor.Geometry.Vector
import TileCompositor.Scalar.Order
/-!
# Rectangles

An axis-aligned rectangle is an origin and a signed size: a negative width or
height flips the rectangle about its origin, so that one description serves
flipped quads. `min` and `max` are its corners whatever the signs.
-/
namespace TileCompositor

structure Rect where
  origin : Vec2 := {}
  size : Vec2 := {}
deriving BEq, DecidableEq, Inhabited

/-- Radii of the four rounded corners; zero or less leaves a corner square. -/
structure CornerRadii where
  topLeft : Float32 := 0.0
  topRight : Float32 := 0.0
  bottomRight : Float32 := 0.0
  bottomLeft : Float32 := 0.0
deriving BEq, DecidableEq, Inhabited

namespace Rect

/-- The rectangle at `(x, y)` of width `w` and height `h`.
mirrors `new`, coords/rect:15-20 -/
def ofXYWH (x y w h : Float32) : Rect := ⟨⟨x, y⟩, ⟨w, h⟩⟩

/-- The rectangle packed as x, y, w, h. -/
def toVec4 (r : Rect) : Vec4 := ⟨r.origin.x, r.origin.y, r.size.x, r.size.y⟩

/-- The point at unit-square coordinates `unit`; the size counts signed.
mirrors `point_at`, coords/rect:43-45 -/
def pointAt (r : Rect) (unit : Vec2) : Vec2 := r.origin + r.size.mulElem unit

/-- The corner opposite to the origin. -/
def far (r : Rect) : Vec2 := r.pointAt (Vec2.splat 1.0)

/-- The corner with the smallest coordinates.
mirrors `min`, coords/rect:49-52 -/
def min (r : Rect) : Vec2 :=
  let far := r.far
  ⟨Scalar.minNum r.origin.x far.x, Scalar.minNum r.origin.y far.y⟩

/-- The corner with the largest coordinates.
mirrors `max`, coords/rect:56-59 -/
def max (r : Rect) : Vec2 :=
  let far := r.far
  ⟨Scalar.maxNum r.origin.x far.x, Scalar.maxNum r.origin.y far.y⟩

/-- The same area described with a size that is not negative.
mirrors `normalized`, coords/rect:63-66 -/
def normalized (r : Rect) : Rect := ⟨r.min, r.max - r.min⟩

/-- Containment in the half-open region `[min, max)` of both axes.
mirrors `contains`, coords/rect:70-73 -/
def contains (r : Rect) (p : Vec2) : Bool :=
  let lo := r.min
  let hi := r.max
  lo.x <= p.x && lo.y <= p.y && p.x < hi.x && p.y < hi.y

end Rect

namespace CornerRadii

/-- The same radius on all corners. -/
def all (r : Float32) : CornerRadii := ⟨r, r, r, r⟩

def zero : CornerRadii := all 0.0

/-- The radii packed clockwise from the top left. -/
def toVec4 (r : CornerRadii) : Vec4 := ⟨r.topLeft, r.topRight, r.bottomRight, r.bottomLeft⟩

/-- Whether every corner is square.
mirrors `is_zero`, coords/corner_radii:42-47 -/
def isZero (r : CornerRadii) : Bool :=
  r.topLeft <= 0.0 && r.topRight <= 0.0 && r.bottomRight <= 0.0 && r.bottomLeft <= 0.0

end CornerRadii

end TileCompositor
