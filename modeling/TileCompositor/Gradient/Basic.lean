import TileCompositor.Color.Basic
import TileCompositor.Geometry.Vector
/-!
# Linear gradients

A gradient runs from `start` to `finish`, both relative to the origin of the
painted rectangle, through a list of colour stops. The offset of a point is 0
at the start and 1 at the finish; `Extend` says what holds beyond.
-/
namespace TileCompositor

/-- What a gradient shows beyond its two ends. -/
inductive Extend where
  /-- The colour of the nearer end. -/
  | clamp
  /-- The gradient again, period 1. -/
  | periodic
deriving DecidableEq, Inhabited

/-- The offset brought into the domain `[0, 1]` of a ramp.
mirrors `apply`, paint/gradient:20-25 -/
def Extend.apply (mode : Extend) (t : Float32) : Float32 :=
  match mode with
  | .clamp => Scalar.clamp t 0.0 1.0
  | .periodic => t - Scalar.floor t

/-- A colour that a gradient takes at an offset. -/
structure ColorStop where
  offset : Float32
  color : Color
deriving BEq, DecidableEq, Inhabited

/-- Neither the offset nor a channel of the colour is NaN or infinite. -/
def ColorStop.isFinite (s : ColorStop) : Bool := s.offset.isFinite && s.color.isFinite

structure LinearGradient where
  start : Vec2
  finish : Vec2
  stops : List ColorStop
  extend : Extend
deriving BEq, DecidableEq, Inhabited

namespace LinearGradient

/-- Whether the gradient can be painted: a finite axis of some length and at
least two stops, all of them finite.
mirrors `is_valid`, paint/gradient:64-70 -/
def isValid (g : LinearGradient) : Bool :=
  g.start.isFinite && g.finish.isFinite && 2 ≤ g.stops.length &&
    g.stops.all ColorStop.isFinite && g.finish != g.start

/-- The axis divided by its squared length, so that its inner product with
`p - start` is the offset of `p`. An axis without length gives the zero
vector, and with it the offset 0 everywhere.
mirrors `scaled_direction`, paint/gradient:76-80 -/
def scaledDirection (g : LinearGradient) : Vec2 :=
  let d := g.finish - g.start
  let len2 := d.lengthSquared
  if 0.0 < len2 then d.divide len2 else Vec2.zero

end LinearGradient

end TileCompositor
