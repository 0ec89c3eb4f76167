import TileCompositor.Geometry.Vector
import TileCompositor.Scalar.Order
/-!
# Four by four matrices

Matrices are kept by columns and act on column vectors. Each component of a
product is the sum of four products added from left to right, every step
rounded, so the order of the terms is part of the meaning.
-/
namespace TileCompositor

structure Mat4 where
  c0 : Vec4
  c1 : Vec4
  c2 : Vec4
  c3 : Vec4
deriving BEq, DecidableEq, Inhabited

namespace Mat4

/-- mirrors `identity`, coords/mat4:19-28 -/
def identity : Mat4 where
  c0 := ⟨1.0, 0.0, 0.0, 0.0⟩
  c1 := ⟨0.0, 1.0, 0.0, 0.0⟩
  c2 := ⟨0.0, 0.0, 1.0, 0.0⟩
  c3 := ⟨0.0, 0.0, 0.0, 1.0⟩

/-- Moves points by `(tx, ty)`.
mirrors `translation`, coords/mat4:31-35 -/
def shift (tx ty : Float32) : Mat4 :=
  { identity with c3 := ⟨tx, ty, 0.0, 1.0⟩ }

/-- mirrors `scale`, coords/mat4:38-43 -/
def scaling (sx sy : Float32) : Mat4 :=
  { identity with c0 := ⟨sx, 0.0, 0.0, 0.0⟩, c1 := ⟨0.0, sy, 0.0, 0.0⟩ }

/-- The orthographic projection of the box between the given planes onto
clip space.
mirrors `ortho`, coords/mat4:46-58 -/
def ortho (left right bottom top near far : Float32) : Mat4 :=
  let width := right - left
  let height := top - bottom
  let depth := far - near
  { c0 := ⟨2.0 / width, 0.0, 0.0, 0.0⟩
    c1 := ⟨0.0, 2.0 / height, 0.0, 0.0⟩
    c2 := ⟨0.0, 0.0, -2.0 / depth, 0.0⟩
    c3 := ⟨-(right + left) / width, -(top + bottom) / height, -(far + near) / depth, 1.0⟩ }

/-- The matrix applied to a column vector.
mirrors `transform`, coords/mat4:62-69 -/
def transform (m : Mat4) (v : Vec4) : Vec4 where
  x := m.c0.x * v.x + m.c1.x * v.y + m.c2.x * v.z + m.c3.x * v.w
  y := m.c0.y * v.x + m.c1.y * v.y + m.c2.y * v.z + m.c3.y * v.w
  z := m.c0.z * v.x + m.c1.z * v.y + m.c2.z * v.z + m.c3.z * v.w
  w := m.c0.w * v.x + m.c1.w * v.y + m.c2.w * v.z + m.c3.w * v.w

/-- The matrix applied to a point of the plane z = 0.
mirrors `transform_point`, coords/mat4:73-75 -/
def transformPoint (m : Mat4) (p : Vec2) : Vec4 := m.transform ⟨p.x, p.y, 0.0, 1.0⟩

/-- The product: first `b`, then `a`.
mirrors `mul`, coords/mat4:81-87 -/
instance : Mul Mat4 :=
  ⟨fun a b => ⟨a.transform b.c0, a.transform b.c1, a.transform b.c2, a.transform b.c3⟩⟩

/-- The matrix column after column.
mirrors `to_gpu`, tables/gpu:43-45 -/
def numbers (m : Mat4) : List Float32 :=
  [m.c0, m.c1, m.c2, m.c3].flatMap fun c => [c.x, c.y, c.z, c.w]

end Mat4

/-- The size of a render target in device pixels. -/
structure Viewport where
  width : Float32
  height : Float32
deriving BEq, DecidableEq, Inhabited

/-- Layout pixels, y down from the top left, to clip space. A side shorter
than one pixel is taken as one pixel.
mirrors `projection`, coords/viewport:21-23 -/
def Viewport.projection (v : Viewport) : Mat4 :=
  Mat4.ortho 0.0 (Scalar.maxNum v.width 1.0) (Scalar.maxNum v.height 1.0) 0.0 (-1.0) 1.0

/-- A homogeneous point brought back to the plane. A zero `w` counts as one.
mirrors `vertex`, vertex/expand:61-62 -/
def Vec4.project (p : Vec4) : Vec2 :=
  let w := if p.w != 0.0 then p.w else 1.0
  ⟨p.x / w, p.y / w⟩

end TileCompositor
