import TileCompositor.Geometry.Vector
/-!
# Tiles

A pattern fills the plane with tiles of one size at one distance.
-/
namespace TileCompositor

/-- The tiles of a pattern: `size` is the painted part of a tile and `period`
the distance at which tiles repeat. A period above the size leaves gaps. -/
structure TileParams where
  size : Vec2
  period : Vec2
deriving BEq, DecidableEq

namespace TileParams

/-- Tiles of the given size without gaps.
mirrors `single`, tables/entries:85-87 -/
def single (size : Vec2) : TileParams := ⟨size, size⟩

/-- One tile as large as numbers go.
mirrors `default`, tables/entries:101-103 -/
def unbounded : TileParams := single (Vec2.splat Scalar.greatest)

instance : Inhabited TileParams := ⟨unbounded⟩

/-- mirrors `to_gpu`, tables/gpu:62-64 -/
def numbers (t : TileParams) : List Float32 := [t.size.x, t.size.y, t.period.x, t.period.y]

end TileParams

end TileCompositor
