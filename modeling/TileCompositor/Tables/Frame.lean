import TileCompositor.Geometry.Clip
import TileCompositor.Geometry.Matrix
import TileCompositor.Tables.Bounded
import TileCompositor.Tables.Tile
/-!
# The tables and settings of a frame

A producer fills three tables once a frame; records address their entries by
index. `Edit` lists what a producer can do to the tables, and `edit` performs
one step: a step that fails leaves the tables as they were.
-/
namespace TileCompositor

/-- The capacities of the three tables. -/
structure TableLimits where
  transforms : Nat := 32
  clipRects : Nat := 64
  tileParams : Nat := 64
deriving DecidableEq

structure UniformTables where
  transforms : Table Mat4
  clipRects : Table ClipRect
  tileParams : Table TileParams

namespace UniformTables

/-- mirrors `new`, tables/mod:49-55 -/
def empty (limits : TableLimits) : UniformTables where
  transforms := Table.empty .transform limits.transforms
  clipRects := Table.empty .clipRect limits.clipRects
  tileParams := Table.empty .tileParams limits.tileParams

def pushTransform (t : UniformTables) (m : Mat4) : Except TableFull (UInt32 × UniformTables) :=
  (t.transforms.push m).map fun (index, table) => (index, { t with transforms := table })

def pushClip (t : UniformTables) (c : ClipRect) : Except TableFull (UInt32 × UniformTables) :=
  (t.clipRects.push c).map fun (index, table) => (index, { t with clipRects := table })

def pushTile (t : UniformTables) (p : TileParams) : Except TableFull (UInt32 × UniformTables) :=
  (t.tileParams.push p).map fun (index, table) => (index, { t with tileParams := table })

/-- All three tables emptied for the next frame.
mirrors `clear`, tables/mod:58-62 -/
def clear (t : UniformTables) : UniformTables where
  transforms := t.transforms.clear
  clipRects := t.clipRects.clear
  tileParams := t.tileParams.clear

/-- A step of a producer. -/
inductive Edit where
  | pushTransform (m : Mat4)
  | pushClip (c : ClipRect)
  | pushTile (p : TileParams)
  | clearTransforms
  | clearClips
  | clearTiles
  | clear

/-- What a step answers. -/
inductive Answer where
  /-- The index of the entry that was added. -/
  | index (i : UInt32)
  | full (e : TableFull)
  | cleared
deriving DecidableEq

/-- The answer of a push, and the tables after it. -/
def settle (t : UniformTables) : Except TableFull (UInt32 × UniformTables) → Answer × UniformTables
  | .ok (i, t') => (.index i, t')
  | .error e => (.full e, t)

def edit (t : UniformTables) : Edit → Answer × UniformTables
  | .pushTransform m => t.settle (t.pushTransform m)
  | .pushClip c => t.settle (t.pushClip c)
  | .pushTile p => t.settle (t.pushTile p)
  | .clearTransforms => (.cleared, { t with transforms := t.transforms.clear })
  | .clearClips => (.cleared, { t with clipRects := t.clipRects.clear })
  | .clearTiles => (.cleared, { t with tileParams := t.tileParams.clear })
  | .clear => (.cleared, t.clear)

/-- The tables after a sequence of steps. -/
def edits (t : UniformTables) (steps : List Edit) : UniformTables :=
  steps.foldl (fun t step => (t.edit step).2) t

end UniformTables

/-- What all records of a draw share: the transform applied after that of the
record, usually the projection of the viewport, and the device pixel ratio. -/
structure FrameUniforms where
  globalTransform : Mat4 := Mat4.identity
  devicePixelRatio : Float32 := 1.0
deriving DecidableEq

end TileCompositor
