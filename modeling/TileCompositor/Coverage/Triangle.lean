import TileCompositor.Quad.Expansion
import TileCompositor.Scalar.Order
/-!
# Which pixels a triangle covers

A triangle on the pixel grid is wound so that its area is positive. A pixel is
covered if its centre lies on the inner side of all three edges; a centre on
an edge counts if the edge is a top or a left one, so that of two triangles
that share an edge one has it. A triangle whose area is zero or not finite
covers nothing.

`Triangle.fragmentAt` decides one pixel, `Triangle.fragments` lists the
covered pixels of a target row by row.
-/
namespace TileCompositor

/-- A point of clip space on a target of the given size, y down.
mirrors `to_pixels`, raster/mod:77-81 -/
def toPixels (clip : Vec4) (width height : Float32) : Vec2 :=
  let p := clip.project
  ⟨(p.x + 1.0) * 0.5 * width, (1.0 - p.y) * 0.5 * height⟩

/-- Twice the signed area of the triangle `a b p`: positive if it runs
clockwise on the screen.
mirrors `edge`, raster/mod:84-86 -/
def edge (a b p : Vec2) : Float32 :=
  (b.x - a.x) * (p.y - a.y) - (b.y - a.y) * (p.x - a.x)

/-- Whether the edge from `a` to `b` of a clockwise triangle is its top edge or
a left one.
mirrors `is_top_left`, raster/mod:90-92 -/
def isTopLeftEdge (a b : Vec2) : Bool :=
  (a.y == b.y && a.x < b.x) || b.y < a.y

/-- Whether a point with edge value `w` is on the inner side of an edge.
mirrors `covers`, raster/mod:95-97 -/
def isInside (w : Float32) (topLeft : Bool) : Bool :=
  0.0 < w || (w == 0.0 && topLeft)

/-- A vertex on the pixel grid. -/
structure PlacedVertex where
  position : Vec2
  varyings : Varyings
deriving DecidableEq

/-- mirrors `raster_triangle`, raster/mod:109-113 -/
def Vertex.place (v : Vertex) (width height : Float32) : PlacedVertex :=
  ⟨toPixels v.clipPosition width height, v.varyings⟩

/-- A clockwise triangle with its area, doubled. -/
structure Triangle where
  a : PlacedVertex
  b : PlacedVertex
  c : PlacedVertex
  area : Float32

/-- A pixel covered by a triangle, with the varyings at its centre. -/
structure Fragment where
  x : Nat
  y : Nat
  coord : Vec2
  varyings : Varyings
deriving DecidableEq

/-- A box of pixels; the far sides are excluded. -/
structure PixelBox where
  left : Nat
  top : Nat
  right : Nat
  bottom : Nat
deriving DecidableEq

/-- The pixels of the box, row by row. -/
def PixelBox.pixels (b : PixelBox) : List (Nat × Nat) :=
  (List.range' b.top (b.bottom - b.top)).flatMap fun y =>
    (List.range' b.left (b.right - b.left)).map fun x => (x, y)

theorem PixelBox.mem_pixels {b : PixelBox} {x y : Nat} :
    (x, y) ∈ b.pixels ↔ (b.left ≤ x ∧ x < b.right) ∧ b.top ≤ y ∧ y < b.bottom := by
  simp only [pixels, List.mem_flatMap, List.mem_map, List.mem_range'_1, Prod.mk.injEq]
  constructor
  · rintro ⟨_, hy, _, hx, rfl, rfl⟩
    omega
  · intro h
    exact ⟨y, by omega, x, by omega, rfl, rfl⟩

/-- The centre of the pixel at column `x` and row `y`.
mirrors `raster_triangle`, raster/mod:139 -/
def pixelCentre (x y : Nat) : Vec2 := ⟨Scalar.ofNat x + 0.5, Scalar.ofNat y + 0.5⟩

namespace Triangle

/-- The triangle of three vertices given in either sense.
mirrors `raster_triangle`, raster/mod:115-124 -/
def wind? (a b c : PlacedVertex) : Option Triangle :=
  let area := edge a.position b.position c.position
  if !area.isFinite || area == 0.0 then none
  else if area < 0.0 then some ⟨a, c, b, -area⟩
  else some ⟨a, b, c, area⟩

/-- The pixels of a target of the given size whose centres the triangle can
contain.
mirrors `raster_triangle`, raster/mod:126-132 -/
def box? (t : Triangle) (width height : Float32) : Option PixelBox :=
  let p := t.a.position
  let q := t.b.position
  let r := t.c.position
  let left := Scalar.maxNum (Scalar.floor (Scalar.minNum (Scalar.minNum p.x q.x) r.x)) 0.0
  let top := Scalar.maxNum (Scalar.floor (Scalar.minNum (Scalar.minNum p.y q.y) r.y)) 0.0
  let right := Scalar.minNum (Scalar.ceil (Scalar.maxNum (Scalar.maxNum p.x q.x) r.x)) width
  let bottom := Scalar.minNum (Scalar.ceil (Scalar.maxNum (Scalar.maxNum p.y q.y) r.y)) height
  if right <= left || bottom <= top then none
  else some ⟨left.toUInt32.toNat, top.toUInt32.toNat, right.toUInt32.toNat, bottom.toUInt32.toNat⟩

/-- The weights of the three vertices at `p`, if the triangle covers `p`.
mirrors `raster_triangle`, raster/mod:140-143 -/
def weightsAt? (t : Triangle) (p : Vec2) : Option Weights :=
  let a := t.a.position
  let b := t.b.position
  let c := t.c.position
  let wa := edge b c p
  let wb := edge c a p
  let wc := edge a b p
  if isInside wa (isTopLeftEdge b c) && isInside wb (isTopLeftEdge c a) &&
      isInside wc (isTopLeftEdge a b) then
    some ⟨wa / t.area, wb / t.area, wc / t.area⟩
  else none

/-- The fragment of the pixel at column `x` and row `y`, if the triangle
covers its centre.
mirrors `raster_triangle`, raster/mod:139-149 -/
def fragmentAt (t : Triangle) (x y : Nat) : Option Fragment :=
  let coord := pixelCentre x y
  (t.weightsAt? coord).map fun w =>
    { x, y, coord, varyings := Varyings.interpolate t.a.varyings t.b.varyings t.c.varyings w }

/-- The fragments of the triangle on a target of the given size, row by row.
mirrors `raster_triangle`, raster/mod:137-158 -/
def fragments (t : Triangle) (width height : Float32) : List Fragment :=
  match t.box? width height with
  | none => []
  | some box => box.pixels.filterMap fun (x, y) => t.fragmentAt x y

end Triangle

/-- The fragments of three vertices on a target of the given size.
mirrors `raster_triangle`, raster/mod:99-159 -/
def triangleFragments (a b c : Vertex) (width height : UInt32) : List Fragment :=
  let w := width.toFloat32
  let h := height.toFloat32
  match Triangle.wind? (a.place w h) (b.place w h) (c.place w h) with
  | none => []
  | some t => t.fragments w h

/-- The fragments of both triangles of a quad, the top-left triangle first.
mirrors `draw`, raster/mod:58-61 -/
def ResolvedInstance.fragments (i : ResolvedInstance) (frame : FrameUniforms) (width height : UInt32) :
    List Fragment :=
  [Half.topLeft, .bottomRight].flatMap fun half =>
    let (a, b, c) := i.triangle half frame
    triangleFragments a b c width height

end TileCompositor
