import TileCompositor.Color.Basic
/-!
# Colours laid over each other

A source over a destination, with straight alpha and with premultiplied alpha,
and the ways in which a drawn colour meets the one that is already there.
-/
namespace TileCompositor

namespace Color

/-- `src` laid over `dst`, both with straight alpha. Nothing over nothing is
transparent black.
mirrors `over`, paint/color:76-83 -/
def sourceOver (src dst : Color) : Color :=
  let a := src.a + dst.a * (1.0 - src.a)
  if a <= 0.0 then transparent
  else
    let mix (s d : Float32) : Float32 := (s * src.a + d * dst.a * (1.0 - src.a)) / a
    ⟨mix src.r dst.r, mix src.g dst.g, mix src.b dst.b, a⟩

/-- Straight to premultiplied alpha.
mirrors `premultiply`, paint/color:87-89 -/
def premultiply (c : Color) : Color := ⟨c.r * c.a, c.g * c.a, c.b * c.a, c.a⟩

/-- `src` laid over `dst`, both premultiplied.
mirrors `premultiplied_over`, paint/color:93-96 -/
def premultipliedOver (src dst : Color) : Color :=
  let k := 1.0 - src.a
  ⟨src.r + dst.r * k, src.g + dst.g * k, src.b + dst.b * k, src.a + dst.a * k⟩

end Color

/-- How a shaded fragment meets the pixel that is already there. -/
inductive BlendMode where
  /-- The fragment over the pixel, straight alpha. -/
  | sourceOver
  /-- The fragment alone. -/
  | replace
  /-- The fragment over the pixel, both premultiplied. -/
  | premultipliedOver
deriving DecidableEq, Inhabited

/-- mirrors `blend`, raster/target:19-25 -/
def BlendMode.blend (mode : BlendMode) (src dst : Color) : Color :=
  match mode with
  | .sourceOver => src.sourceOver dst
  | .replace => src
  | .premultipliedOver => src.premultipliedOver dst

end TileCompositor
