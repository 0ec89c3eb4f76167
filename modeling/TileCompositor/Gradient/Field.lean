import TileCompositor.Gradient.Basic
import TileCompositor.Quad.Varyings
import TileCompositor.Record.Basic
/-!
# Records that are filled with a gradient

A gradient travels in fields that other records use otherwise: the axis in
the border rectangle, its start as the origin and its scaled direction as the
size, and the ramp in the auxiliary word, row in the low seven bits and
`Extend` in the next. `linearGradientInstance` writes these fields and
`GradientField.ofFlat` reads them back.
-/
namespace TileCompositor

/-- What the auxiliary word says about a gradient. -/
structure GradientAux where
  rampRow : UInt32
  extend : Extend
deriving DecidableEq

namespace GradientAux

/-- The bit that is set where the gradient repeats. -/
def periodicBit : UInt32 := 0x80

/-- mirrors `decode`, fragment/gradient:25-30 -/
def decode (word : UInt32) : GradientAux where
  rampRow := low7 word
  extend := if word &&& periodicBit != 0 then .periodic else .clamp

/-- The packed word. Of the row, only seven bits fit.
mirrors `encode`, fragment/gradient:34-40 -/
def encode (a : GradientAux) : UInt32 :=
  low7 a.rampRow ||| match a.extend with
    | .clamp => 0
    | .periodic => periodicBit

end GradientAux

/-- A record over `rect` filled with a gradient that was baked as `rampRow`.
mirrors `linear_gradient_instance`, fragment/gradient:84-91 -/
def linearGradientInstance (rect : Rect) (g : LinearGradient) (rampRow : UInt32) (misc : MiscIndices) :
    InstanceRecord :=
  InstanceRecord.ofRect rect
    |>.setColor Color.white
    |>.setBorder ⟨g.start, g.scaledDirection⟩ CornerRadii.zero
    |>.setAux (GradientAux.encode ⟨rampRow, g.extend⟩)
    |>.setMisc misc

/-- A tiled gradient over local positions. -/
structure GradientField where
  tile : TileParams
  start : Vec2
  scaledDirection : Vec2
  rampRow : UInt32
  extend : Extend
deriving DecidableEq

namespace GradientField

/-- mirrors `from_flat`, fragment/gradient:58-68 -/
def ofFlat (flat : FlatVaryings) : GradientField :=
  let aux := GradientAux.decode flat.aux
  { tile := flat.tile
    start := flat.border.origin
    scaledDirection := flat.border.size
    rampRow := aux.rampRow
    extend := aux.extend }

/-- The offset along the axis at a local position, or none in the gap between
two tiles.
mirrors `offset_at`, fragment/gradient:72-78 -/
def offsetAt (g : GradientField) (position : Vec2) : Option Float32 :=
  let p := position.euclidMod g.tile.period
  if g.tile.size.x <= p.x || g.tile.size.y <= p.y then none
  else some ((p - g.start).dot g.scaledDirection)

end GradientField

end TileCompositor
