import TileCompositor.Scalar.Integral
import TileCompositor.Scalar.Remainder
/-!
# Vectors

`Vec2` is a point or an extent in layout pixels, x to the right and y
downwards. `Vec4` is a homogeneous point, and the form in which four numbers
are packed for the vertex stage. Equality `==` is that of the numbers: zeros
of either sign are equal and NaN equals nothing.
-/
namespace TileCompositor

structure Vec2 where
  x : Float32 := 0.0
  y : Float32 := 0.0
deriving BEq, DecidableEq, Inhabited

structure Vec4 where
  x : Float32 := 0.0
  y : Float32 := 0.0
  z : Float32 := 0.0
  w : Float32 := 0.0
deriving BEq, DecidableEq, Inhabited

namespace Vec2

def zero : Vec2 := ⟨0.0, 0.0⟩

theorem beq_iff {a b : Vec2} : (a == b) = true ↔ (a.x == b.x) = true ∧ (a.y == b.y) = true := by
  show (a.x == b.x && a.y == b.y) = true ↔ _
  rw [Bool.and_eq_true]

/-- The same number on both axes. -/
def splat (v : Float32) : Vec2 := ⟨v, v⟩

instance : Add Vec2 := ⟨fun a b => ⟨a.x + b.x, a.y + b.y⟩⟩
instance : Sub Vec2 := ⟨fun a b => ⟨a.x - b.x, a.y - b.y⟩⟩

/-- Both components times `k`.
mirrors `mul`, coords/vec2:90-92 -/
def scale (v : Vec2) (k : Float32) : Vec2 := ⟨v.x * k, v.y * k⟩

/-- Both components divided by `k`.
mirrors `div`, coords/vec2:98-100 -/
def divide (v : Vec2) (k : Float32) : Vec2 := ⟨v.x / k, v.y / k⟩

/-- The product component by component.
mirrors `mul_elem`, coords/vec2:53-55 -/
def mulElem (a b : Vec2) : Vec2 := ⟨a.x * b.x, a.y * b.y⟩

/-- mirrors `dot`, coords/vec2:42-44 -/
def dot (a b : Vec2) : Float32 := a.x * b.x + a.y * b.y

/-- mirrors `length_squared`, coords/vec2:47-49 -/
def lengthSquared (v : Vec2) : Float32 := v.dot v

/-- mirrors `is_finite`, coords/vec2:37-39 -/
def isFinite (v : Vec2) : Bool := v.x.isFinite && v.y.isFinite

/-- Each component moved into the period of its axis.
mirrors `rem_euclid`, coords/vec2:61-63 -/
def euclidMod (v period : Vec2) : Vec2 :=
  ⟨Scalar.euclidMod v.x period.x, Scalar.euclidMod v.y period.y⟩

/-- Each component to the nearest whole number, halves away from zero.
mirrors `round`, coords/vec2:66-68 -/
def round (v : Vec2) : Vec2 := ⟨Scalar.round v.x, Scalar.round v.y⟩

/-- A position moved onto the device pixel grid. A ratio that is not positive
has no grid and leaves the position where it is.
mirrors `snap_to_device_pixels`, vertex/expand:98-104 -/
def snapToDevicePixels (p : Vec2) (ratio : Float32) : Vec2 :=
  if 0.0 < ratio then (p.scale ratio).round.divide ratio else p

end Vec2

end TileCompositor
