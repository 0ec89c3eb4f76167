import TileCompositor.Quad.Varyings
import TileCompositor.Record.Basic
import TileCompositor.Tables.Frame
/-!
# From a record to the vertices of a quad

`InstanceRecord.resolve` looks up the table entries that a record refers to,
once for the whole quad; after that nothing can fail. A vertex is placed by
the transform of the instance, moved onto the device pixel grid, and then
placed on the target by the transform of the frame.
-/
namespace TileCompositor

/-- A vertex ready for rasterisation. -/
structure Vertex where
  clipPosition : Vec4
  varyings : Varyings
deriving DecidableEq

/-- A record together with the table entries that it refers to. -/
structure ResolvedInstance where
  record : InstanceRecord
  indices : MiscIndices
  transform : Mat4
  flat : FlatVaryings

/-- The table entries that the record refers to, looked up in the order
transform, clip-in, clip-out, tile; the first miss is the error.
mirrors `resolve`, vertex/expand:21-43 -/
def InstanceRecord.resolve (record : InstanceRecord) (tables : UniformTables) :
    Except OutOfRange ResolvedInstance := do
  let indices := record.indices
  let transform ← tables.transforms.get indices.transform
  let clipIn ← tables.clipRects.get indices.clipIn
  let clipOut ← tables.clipRects.get indices.clipOut
  let tile ← tables.tileParams.get indices.tile
  return {
    record
    indices
    transform
    flat := {
      border := record.border
      borderRadii := record.borderRadii
      sourceSize := record.sourceSize
      targetSize := record.targetSize
      blurRadius := record.blurRadius
      aux := record.aux
      tile
      clipIn
      clipOut
      borderCornerMode := indices.borderCornerMode } }

namespace ResolvedInstance

/-- The colour of a vertex. In border-corner mode each triangle has the
colour of the corner that it is named for.
mirrors `vertex`, vertex/expand:65-72 -/
def vertexColor (i : ResolvedInstance) (corner : Corner) (half : Half) : Color :=
  i.record.colors.get (if i.indices.borderCornerMode then half.corner else corner)

/-- The vertex of the quad at `corner`, as a vertex of the triangle `half`.
mirrors `vertex`, vertex/expand:56-85 -/
def vertex (i : ResolvedInstance) (corner : Corner) (half : Half) (frame : FrameUniforms) : Vertex :=
  let rect := i.record.rect
  let position := rect.pointAt corner.unit
  let world := (i.transform.transformPoint position).project.snapToDevicePixels frame.devicePixelRatio
  { clipPosition := frame.globalTransform.transformPoint world
    varyings := {
      worldPosition := world
      localPosition := position - rect.origin
      color := i.vertexColor corner half
      colorUv := i.record.colorUvs.get corner
      maskUv := i.record.maskUvs.get corner } }

/-- The three vertices of one triangle of the quad. -/
def triangle (i : ResolvedInstance) (half : Half) (frame : FrameUniforms) : Vertex × Vertex × Vertex :=
  let (a, b, c) := half.corners
  (i.vertex a half frame, i.vertex b half frame, i.vertex c half frame)

/-- The six vertices in the order in which they are drawn.
mirrors `quad`, vertex/expand:88-93 -/
def quad (i : ResolvedInstance) (frame : FrameUniforms) : List Vertex :=
  quadVertices.map fun (corner, half) => i.vertex corner half frame

end ResolvedInstance

end TileCompositor
