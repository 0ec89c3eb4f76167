import TileCompositor.Geometry.Vector
/-!
# The corners and triangles of a quad

A quad is drawn as two triangles, six vertices in a fixed order, which share
the diagonal from the top right to the bottom left corner. Corners are those
of the rectangle as described, before a negative size flips it.
-/
namespace TileCompositor

inductive Corner where
  | topLeft
  | topRight
  | bottomRight
  | bottomLeft
deriving DecidableEq, Inhabited

/-- The triangle of a quad that a vertex belongs to. -/
inductive Half where
  | topLeft
  | bottomRight
deriving DecidableEq, Inhabited

/-- One value for each corner. -/
structure PerCorner (α : Type) where
  topLeft : α
  topRight : α
  bottomRight : α
  bottomLeft : α
deriving DecidableEq, Inhabited

namespace PerCorner
variable {α β : Type}

def get (c : PerCorner α) : Corner → α
  | .topLeft => c.topLeft
  | .topRight => c.topRight
  | .bottomRight => c.bottomRight
  | .bottomLeft => c.bottomLeft

/-- The values that a function has at the corners. -/
def ofFn (f : Corner → α) : PerCorner α :=
  ⟨f .topLeft, f .topRight, f .bottomRight, f .bottomLeft⟩

/-- The same value at every corner. -/
def const (a : α) : PerCorner α := ⟨a, a, a, a⟩

def map (f : α → β) (c : PerCorner α) : PerCorner β :=
  ⟨f c.topLeft, f c.topRight, f c.bottomRight, f c.bottomLeft⟩

@[simp] theorem get_ofFn (f : Corner → α) (corner : Corner) : (ofFn f).get corner = f corner := by
  cases corner <;> rfl

@[simp] theorem get_const (a : α) (corner : Corner) : (const a).get corner = a := by
  cases corner <;> rfl

@[simp] theorem get_map (f : α → β) (c : PerCorner α) (corner : Corner) :
    (c.map f).get corner = f (c.get corner) := by
  cases corner <;> rfl

end PerCorner

namespace Corner

/-- The corners clockwise from the top left. -/
def all : List Corner := [.topLeft, .topRight, .bottomRight, .bottomLeft]

/-- The corner in the unit square.
mirrors `unit`, instance/triangle:50-57 -/
def unit : Corner → Vec2
  | .topLeft => ⟨0.0, 0.0⟩
  | .topRight => ⟨1.0, 0.0⟩
  | .bottomRight => ⟨1.0, 1.0⟩
  | .bottomLeft => ⟨0.0, 1.0⟩

/-- mirrors `is_top`, instance/triangle:61-63 -/
def isTop : Corner → Bool
  | .topLeft | .topRight => true
  | .bottomRight | .bottomLeft => false

end Corner

namespace Half

/-- The corner that names the triangle. -/
def corner : Half → Corner
  | .topLeft => .topLeft
  | .bottomRight => .bottomRight

/-- The triangle of the vertex with the given ordinal in its quad.
mirrors `of_vertex`, instance/triangle:21-23 -/
def ofOrdinal (ordinal : UInt32) : Half :=
  if ordinal < 3 then .topLeft else .bottomRight

/-- The corners of the triangle in the order of its vertices. -/
def corners : Half → Corner × Corner × Corner
  | .topLeft => (.topLeft, .topRight, .bottomLeft)
  | .bottomRight => (.topRight, .bottomRight, .bottomLeft)

end Half

/-- The corner and triangle of a vertex. Ordinals past the sixth start over,
so the number of a vertex in a whole draw can be given.
mirrors `quad_vertex`, instance/triangle:80-83 -/
def quadVertex (ordinal : UInt32) : Corner × Half :=
  let k := ordinal % 6
  let half := Half.ofOrdinal k
  let (a, b, c) := half.corners
  (if k % 3 = 0 then a else if k % 3 = 1 then b else c, half)

/-- The six vertices in the order in which they are drawn.
mirrors `QUAD_CORNERS`, instance/triangle:67-74 -/
def quadVertices : List (Corner × Half) :=
  [Half.topLeft, .bottomRight].flatMap fun half =>
    let (a, b, c) := half.corners
    [(a, half), (b, half), (c, half)]

/-- The ordinals of the first quad name its vertices in the order in which
they are drawn. -/
theorem quadVertices_eq : quadVertices = (List.range 6).map fun k => quadVertex k.toUInt32 := by
  decide

end TileCompositor
