import TileCompositor.Geometry.Rect
/-!
# Clip regions

A clip region is a rectangle whose corners may be rounded. The same kind of
region keeps what is inside or drops what is inside, depending on the index
that refers to it.
-/
namespace TileCompositor

structure ClipRect where
  rect : Rect := {}
  radii : CornerRadii := {}
deriving BEq, DecidableEq, Inhabited

namespace ClipRect

/-- The region without area. It drops nothing and keeps nothing.
mirrors `EMPTY`, tables/entries:16-19 -/
def empty : ClipRect := ⟨Rect.ofXYWH 0.0 0.0 0.0 0.0, CornerRadii.zero⟩

/-- A region with square corners.
mirrors `new`, tables/entries:22-24 -/
def square (rect : Rect) : ClipRect := ⟨rect, CornerRadii.zero⟩

/-- A rounded corner: its radius, the signs of the direction from the corner
into the rectangle, and the corner point. -/
structure Arc where
  radius : Float32
  inward : Vec2
  point : Vec2

/-- The rounded corners of the rectangle spanned by `lo` and `hi`.
mirrors `contains`, tables/entries:44-49 -/
def arcs (radii : CornerRadii) (lo hi : Vec2) : List Arc :=
  [⟨radii.topLeft, ⟨1.0, 1.0⟩, lo⟩,
   ⟨radii.topRight, ⟨-1.0, 1.0⟩, ⟨hi.x, lo.y⟩⟩,
   ⟨radii.bottomRight, ⟨-1.0, -1.0⟩, hi⟩,
   ⟨radii.bottomLeft, ⟨1.0, -1.0⟩, ⟨lo.x, hi.y⟩⟩]

/-- Whether the corner, its radius brought between 0 and `limit`, cuts `p`
away: `p` lies towards the corner from the centre of the arc on both axes,
and beyond the arc.
mirrors `contains`, tables/entries:52-61 -/
def Arc.cuts (c : Arc) (limit : Float32) (p : Vec2) : Bool :=
  let radius := Scalar.clamp c.radius 0.0 limit
  let d := p - (c.point + c.inward.scale radius)
  !(radius <= 0.0) && d.x * c.inward.x < 0.0 && d.y * c.inward.y < 0.0 &&
    radius * radius < d.lengthSquared

/-- The largest radius that a corner of a rectangle of the given size can
have: half the shorter side.
mirrors `contains`, tables/entries:43 -/
def radiusLimit (size : Vec2) : Float32 := 0.5 * Scalar.minNum size.x size.y

/-- Containment, edges half-open and corners rounded.
mirrors `contains`, tables/entries:32-64 -/
def contains (c : ClipRect) (p : Vec2) : Bool :=
  let r := c.rect.normalized
  r.contains p &&
    (c.radii.isZero ||
      (arcs c.radii r.min r.max).all fun arc => !arc.cuts (radiusLimit r.size) p)

/-- The rectangle, then the radii.
mirrors `to_gpu`, tables/gpu:51-56 -/
def numbers (c : ClipRect) : List Float32 :=
  let r := c.rect.toVec4
  let q := c.radii.toVec4
  [r.x, r.y, r.z, r.w, q.x, q.y, q.z, q.w]

end ClipRect

/-- What a fragment keeps at `p`: 1 inside `keep` and outside `drop`, else 0.
mirrors `clip_mask`, fragment/clip:9-15 -/
def clipMask (p : Vec2) (keep drop : ClipRect) : Float32 :=
  if keep.contains p && !drop.contains p then 1.0 else 0.0

end TileCompositor
