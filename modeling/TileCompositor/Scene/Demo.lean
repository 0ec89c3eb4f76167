import TileCompositor.Scene.Builder
/-!
# The demo scenes

Four scenes show what the pipeline can do. Each starts from the same four
table entries: the identity transform, a clip region over the whole viewport,
the empty region, and the tile as large as numbers go. Building fails if a
table or the ramp store is too small for the scene.
-/
namespace TileCompositor

namespace Demo

/-- An opaque or translucent colour from bytes. -/
def rgba (r g b a : UInt8) : Color := Color.ofRgba8 ⟨r, g, b, a⟩

/-- How much of a pixel at distance `d` from the middle of the ring between
the two radii is covered; the edges are a pixel wide. -/
def ringCoverage (outer inner d : Float32) : Float32 :=
  Scalar.clamp (outer - d + 0.5) 0.0 1.0 * Scalar.clamp (d - inner + 0.5) 0.0 1.0

/-- The glyph of the text scene: a ring in a square of the given side.
mirrors `glyph_mask`, scenes:250-259 -/
def glyphMask (size : UInt32) : Except TextureError AlphaTexture :=
  let c := size.toFloat32 * 0.5
  AlphaTexture.ofFn size size fun x y =>
    let v : Vec2 := ⟨x.toFloat32 + 0.5 - c, y.toFloat32 + 0.5 - c⟩
    let coverage := ringCoverage (c * 0.9) (c * 0.5) v.lengthSquared.sqrt
    (Scalar.round (coverage * 255.0)).toUInt8

/-- The entries that every scene starts with, as indices.
mirrors `misc`, scenes:67-69 -/
def baseIndices (identity fullClip noClip singleTile : UInt32) : MiscIndices where
  transform := identity
  clipIn := fullClip
  clipOut := noClip
  tile := singleTile

/-- A dark rectangle over the whole viewport.
mirrors `background`, scenes:107-111 -/
def background (base : MiscIndices) (v : Viewport) : InstanceRecord :=
  InstanceRecord.ofRect (Rect.ofXYWH 0.0 0.0 v.width v.height)
    |>.setColor (rgba 24 26 32 255)
    |>.setMisc base

/-- mirrors `solid`, scenes:113-138 -/
def solid (scene : Scene) (base : MiscIndices) (v : Viewport) : Scene :=
  let w := v.width
  let h := v.height
  let corners : PerCorner Color :=
    ⟨rgba 230 60 60 255, rgba 60 200 90 255, rgba 60 90 230 255, rgba 240 200 40 255⟩
  scene.addBatch .color
    [background base v,
     InstanceRecord.ofRect (Rect.ofXYWH (w * 0.1) (h * 0.1) (w * 0.35) (h * 0.35))
       |>.setColor Color.red |>.setMisc base,
     InstanceRecord.ofRect (Rect.ofXYWH (w * 0.55) (h * 0.1) (w * 0.35) (h * 0.35))
       |>.setColors corners |>.setMisc base,
     -- the rectangle above once more, flipped by its negative width
     InstanceRecord.ofRect (Rect.ofXYWH (w * 0.9) (h * 0.55) (-w * 0.35) (h * 0.35))
       |>.setColors corners |>.setMisc base,
     InstanceRecord.ofRect (Rect.ofXYWH (w * 0.1) (h * 0.55) (w * 0.35) (h * 0.35))
       |>.setColor ⟨1.0, 1.0, 1.0, 0.5⟩ |>.setMisc base]

/-- mirrors `gradient`, scenes:140-181 -/
def gradient (scene : Scene) (base : MiscIndices) (v : Viewport) (extend : Extend) :
    Except SceneError Scene := do
  let w := v.width
  let h := v.height
  let sunset : LinearGradient := {
    start := ⟨0.0, 0.0⟩
    finish := ⟨w * 0.4, 0.0⟩
    stops := [⟨0.0, rgba 255 200 80 255⟩, ⟨0.5, rgba 230 70 90 255⟩, ⟨1.0, rgba 60 40 120 255⟩]
    extend }
  let mono : LinearGradient := {
    start := ⟨0.0, 0.0⟩
    finish := ⟨0.0, h * 0.1⟩
    stops := [⟨0.0, Color.white⟩, ⟨1.0, Color.black⟩]
    extend }
  let (sunsetRow, scene) ← scene.bakeRamp sunset.stops
  let (monoRow, scene) ← scene.bakeRamp mono.stops
  let tile : Vec2 := ⟨w * 0.1, h * 0.2⟩
  let (tiled, scene) ← scene.pushTile ⟨tile, tile + Vec2.splat 8.0⟩
  return scene.addBatch .color [background base v] |>.addBatch .gradient
    [linearGradientInstance (Rect.ofXYWH (w * 0.05) (h * 0.05) (w * 0.9) (h * 0.4)) sunset sunsetRow base,
     linearGradientInstance (Rect.ofXYWH (w * 0.05) (h * 0.5) (w * 0.9) (h * 0.45)) mono monoRow
       { base with tile := tiled }]

/-- The side of a glyph in the text scene. -/
def glyphSize (v : Viewport) : Float32 :=
  Scalar.maxNum (Scalar.minNum v.width v.height * 0.15) 4.0

/-- The number of glyphs of the given side in a row that leaves a margin; at
least one, if there is room for its transform. -/
def glyphCount (v : Viewport) (size : Float32) (free : Nat) : Nat :=
  let fitting := Scalar.floor (v.width * 0.9 / (size * 1.1))
  min (Scalar.toNatClamped (Scalar.maxNum fitting 1.0)) free

/-- The glyphs from number `first` to `count`, each with a transform of its
own, in the order of the row. -/
def glyphs (scene : Scene) (base : MiscIndices) (v : Viewport) (size : Float32) (count : Nat) :
    List Nat → Except SceneError (List InstanceRecord × Scene)
  | [] => return ([], scene)
  | i :: rest => do
    let t := Scalar.ofNat i / Scalar.ofNat count
    let (transform, scene) ← scene.pushTransform
      (Mat4.shift (v.width * 0.05 + Scalar.ofNat i * size * 1.1) (v.height * 0.5 - size * 0.5))
    let glyph := InstanceRecord.ofRect (Rect.ofXYWH 0.0 0.0 size size)
      |>.setColor ⟨1.0 - t, 0.6, t, 1.0⟩
      |>.setMisc { base with transform }
    let (later, scene) ← glyphs scene base v size count rest
    return (glyph :: later, scene)

/-- mirrors `text`, scenes:183-207 -/
def text (scene : Scene) (base : MiscIndices) (v : Viewport) : Except SceneError Scene := do
  let size := glyphSize v
  let free := scene.tables.transforms.capacity - scene.tables.transforms.length
  let count := glyphCount v size free
  let (records, scene) ← glyphs scene base v size count (List.range count)
  return scene.addBatch .color [background base v] |>.addBatch .text records

/-- mirrors `corners`, scenes:209-247 -/
def corners (scene : Scene) (base : MiscIndices) (v : Viewport) : Except SceneError Scene := do
  let w := v.width
  let h := v.height
  let r := Scalar.minNum w h * 0.12
  let frame := Rect.ofXYWH (w * 0.1) (h * 0.1) (w * 0.8) (h * 0.8)
  let (roundedIn, scene) ← scene.pushClip ⟨frame, CornerRadii.all r⟩
  let (hole, scene) ← scene.pushClip
    ⟨Rect.ofXYWH (w * 0.35) (h * 0.35) (w * 0.3) (h * 0.3), ⟨r, 0.0, r, 0.0⟩⟩
  let clipped : MiscIndices := { base with clipIn := roundedIn, clipOut := hole }
  -- light in the top-left triangle, shadow in the bottom-right one
  let bevel := InstanceRecord.ofRect frame
    |>.setColors ⟨⟨1.0, 1.0, 1.0, 0.35⟩, Color.transparent, ⟨0.0, 0.0, 0.0, 0.35⟩, Color.transparent⟩
    |>.setMisc { clipped with borderCornerMode := true }
  -- a ramp of one colour, which the gradient pass clips
  let blue := rgba 70 130 220 255
  let stops : List ColorStop := [⟨0.0, blue⟩, ⟨1.0, blue⟩]
  let (row, scene) ← scene.bakeRamp stops
  let fill := linearGradientInstance (Rect.ofXYWH 0.0 0.0 w h)
    { start := Vec2.zero, finish := ⟨1.0, 0.0⟩, stops, extend := .clamp } row clipped
  return scene.addBatch .color [background base v] |>.addBatch .gradient [fill]
    |>.addBatch .color [bevel]

/-- The scene of the given kind for a viewport. `periodic` makes its gradients
repeat.
mirrors `build`, scenes:72-105 -/
def build (kind : SceneKind) (v : Viewport) (config : PipelineConfig) (periodic : Bool) :
    Except SceneError Scene := do
  let ramps ← (GradientRamps.ofConfig config).mapError .ramps
  let mask ← (glyphMask 32).mapError .mask
  let scene : Scene := { tables := UniformTables.empty config.limits, ramps, mask }
  let (identity, scene) ← scene.pushTransform Mat4.identity
  let (fullClip, scene) ← scene.pushClip (ClipRect.square (Rect.ofXYWH 0.0 0.0 v.width v.height))
  let (noClip, scene) ← scene.pushClip ClipRect.empty
  let (singleTile, scene) ← scene.pushTile TileParams.unbounded
  let base := baseIndices identity fullClip noClip singleTile
  match kind with
  | .solid => return solid scene base v
  | .gradient => gradient scene base v (if periodic then .periodic else .clamp)
  | .text => text scene base v
  | .corners => corners scene base v

/-- The line that is logged when a scene has been built.
mirrors `build`, scenes:96-103 -/
def buildLog (kind : SceneKind) (s : Scene) : LogLine :=
  ⟨.info, s!"built {kind.title} scene: {s.batches.length} batches, " ++
    s!"{s.tables.transforms.length} transforms, {s.tables.clipRects.length} clip rects, " ++
    s!"{s.tables.tileParams.length} tile params, {s.ramps.rows.size} ramps"⟩

end Demo

end TileCompositor
