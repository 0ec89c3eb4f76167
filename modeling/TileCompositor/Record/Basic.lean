import TileCompositor.Color.Basic
import TileCompositor.Geometry.Rect
import TileCompositor.Quad.Corner
import TileCompositor.Record.Misc
/-!
# Instance records

A record describes one quad to be drawn. The setters return the changed
record and touch nothing but the field they are named for. What colours and
border mean is up to the pass that draws the record: a gradient, for example,
keeps its axis in `border`.
-/
namespace TileCompositor

structure InstanceRecord where
  rect : Rect := {}
  colors : PerCorner Color := .const {}
  /-- Position in the colour texture at each corner. -/
  colorUvs : PerCorner Vec2 := .const {}
  /-- Position in the alpha mask at each corner. -/
  maskUvs : PerCorner Vec2 := .const {}
  border : Rect := {}
  borderRadii : CornerRadii := {}
  /-- Extents of the texture read and of the area written. -/
  sourceSize : Vec2 := {}
  targetSize : Vec2 := {}
  blurRadius : Float32 := 0.0
  /-- Small fields packed in a word. -/
  aux : UInt32 := 0
  /-- The packed table indices. -/
  misc : PackedIndices := {}
deriving DecidableEq

namespace InstanceRecord

/-- The positions of the corners in a texture of which the quad shows `uv`.
mirrors `rect_uvs`, instance/record:200-202 -/
def rectUvs (uv : Rect) : PerCorner Vec2 := .ofFn fun corner => uv.pointAt corner.unit

/-- mirrors `with_corner_colors`, instance/record:96-102 -/
def setColors (r : InstanceRecord) (colors : PerCorner Color) : InstanceRecord := { r with colors }

/-- The same colour at every corner.
mirrors `with_color`, instance/record:91-93 -/
def setColor (r : InstanceRecord) (c : Color) : InstanceRecord := r.setColors (.const c)

/-- mirrors `with_color_uvs`, instance/record:105-108 -/
def setColorUvs (r : InstanceRecord) (uvs : PerCorner Vec2) : InstanceRecord := { r with colorUvs := uvs }

/-- mirrors `with_mask_uvs`, instance/record:111-114 -/
def setMaskUvs (r : InstanceRecord) (uvs : PerCorner Vec2) : InstanceRecord := { r with maskUvs := uvs }

/-- The quad shows the rectangle `uv` of the colour texture.
mirrors `with_color_uv_rect`, instance/record:117-119 -/
def setColorUvRect (r : InstanceRecord) (uv : Rect) : InstanceRecord := r.setColorUvs (rectUvs uv)

/-- The quad shows the rectangle `uv` of the alpha mask.
mirrors `with_mask_uv_rect`, instance/record:122-124 -/
def setMaskUvRect (r : InstanceRecord) (uv : Rect) : InstanceRecord := r.setMaskUvs (rectUvs uv)

/-- mirrors `with_border`, instance/record:126-130 -/
def setBorder (r : InstanceRecord) (rect : Rect) (radii : CornerRadii) : InstanceRecord :=
  { r with border := rect, borderRadii := radii }

/-- mirrors `with_texture_sizes`, instance/record:132-135 -/
def setTextureSizes (r : InstanceRecord) (source target : Vec2) : InstanceRecord :=
  { r with sourceSize := source, targetSize := target }

/-- mirrors `with_blur_radius`, instance/record:137-140 -/
def setBlurRadius (r : InstanceRecord) (radius : Float32) : InstanceRecord :=
  { r with blurRadius := radius }

/-- mirrors `with_aux`, instance/record:142-145 -/
def setAux (r : InstanceRecord) (word : UInt32) : InstanceRecord := { r with aux := word }

/-- mirrors `with_misc`, instance/record:147-150 -/
def setMisc (r : InstanceRecord) (m : MiscIndices) : InstanceRecord := { r with misc := m.pack }

/-- The packed table indices as given, for words that `MiscIndices.pack` does
not produce. -/
def setPackedMisc (r : InstanceRecord) (p : PackedIndices) : InstanceRecord := { r with misc := p }

/-- The unit square, as which both textures are shown unless set otherwise. -/
def unitSquare : Rect := Rect.ofXYWH 0.0 0.0 1.0 1.0

/-- A quad over `rect` that refers to entry 0 of every table.
mirrors `new`, instance/record:79-88 -/
def ofRect (rect : Rect) : InstanceRecord :=
  (({ rect } : InstanceRecord).setColorUvRect unitSquare).setMaskUvRect unitSquare |>.setMisc {}

/-- The table entries that the record refers to.
mirrors `misc`, instance/record:159-161 -/
def indices (r : InstanceRecord) : MiscIndices := r.misc.unpack

/-- A setter with its arguments. -/
inductive Setter where
  | color (c : Color)
  | colors (c : PerCorner Color)
  | colorUvs (uvs : PerCorner Vec2)
  | maskUvs (uvs : PerCorner Vec2)
  | colorUvRect (uv : Rect)
  | maskUvRect (uv : Rect)
  | border (rect : Rect) (radii : CornerRadii)
  | textureSizes (source target : Vec2)
  | blurRadius (radius : Float32)
  | aux (word : UInt32)
  | misc (m : MiscIndices)
  | packedMisc (p : PackedIndices)

def set (r : InstanceRecord) : Setter → InstanceRecord
  | .color c => r.setColor c
  | .colors c => r.setColors c
  | .colorUvs uvs => r.setColorUvs uvs
  | .maskUvs uvs => r.setMaskUvs uvs
  | .colorUvRect uv => r.setColorUvRect uv
  | .maskUvRect uv => r.setMaskUvRect uv
  | .border rect radii => r.setBorder rect radii
  | .textureSizes source target => r.setTextureSizes source target
  | .blurRadius radius => r.setBlurRadius radius
  | .aux word => r.setAux word
  | .misc m => r.setMisc m
  | .packedMisc p => r.setPackedMisc p

/-- The record after a sequence of setters. -/
def sets (r : InstanceRecord) (setters : List Setter) : InstanceRecord := setters.foldl set r

end InstanceRecord

end TileCompositor
