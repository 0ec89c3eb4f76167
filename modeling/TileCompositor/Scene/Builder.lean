import TileCompositor.Scene.Basic
/-!
# Building scenes

The kinds of demo scene, the steps by which a scene is built, and what can go
wrong: a step fails if a table or the ramp store has no room.
-/
namespace TileCompositor

inductive SceneKind where
  /-- Rectangles in one colour or one at each corner. -/
  | solid
  /-- Linear gradients, one of them tiled with gaps. -/
  | gradient
  /-- Glyph quads that sample an alpha mask. -/
  | text
  /-- Border-corner colours under rounded clip regions. -/
  | corners
deriving DecidableEq

namespace SceneKind

def all : List SceneKind := [.solid, .gradient, .text, .corners]

/-- The name that selects the scene. -/
def name : SceneKind → String
  | .solid => "solid"
  | .gradient => "gradient"
  | .text => "text"
  | .corners => "corners"

/-- The name in messages. -/
def title : SceneKind → String
  | .solid => "Solid"
  | .gradient => "Gradient"
  | .text => "Text"
  | .corners => "Corners"

/-- mirrors `describe`, scenes:25-32 -/
def describe : SceneKind → String
  | .solid => "flat and per-corner colored rectangles, one mirrored"
  | .gradient => "clamped and tiled linear gradients (--repeat switches extend mode)"
  | .text => "a row of glyph quads sampling a procedural alpha mask"
  | .corners => "border-corner color mode under rounded clip-in and clip-out rects"

def ofName? (s : String) : Option SceneKind := all.find? fun kind => kind.name == s

end SceneKind

/-- Why a scene cannot be built. -/
inductive SceneError where
  /-- There is no ramp store of the configured size. -/
  | ramps (e : RampError)
  /-- A gradient cannot be baked. -/
  | bake (e : RampError)
  | mask (e : TextureError)
  | table (e : TableFull)
deriving DecidableEq

/-- What failed, from the outermost cause inwards. -/
def SceneError.causes : SceneError → List String
  | .ramps e => ["creating gradient ramps", e.message]
  | .bake e => ["baking ramp", e.message]
  | .mask e => ["building glyph mask", e.message]
  | .table e => [e.message]

namespace Scene

def pushTransform (s : Scene) (m : Mat4) : Except SceneError (UInt32 × Scene) :=
  (s.tables.pushTransform m).map (fun (i, tables) => (i, { s with tables })) |>.mapError .table

def pushClip (s : Scene) (c : ClipRect) : Except SceneError (UInt32 × Scene) :=
  (s.tables.pushClip c).map (fun (i, tables) => (i, { s with tables })) |>.mapError .table

def pushTile (s : Scene) (t : TileParams) : Except SceneError (UInt32 × Scene) :=
  (s.tables.pushTile t).map (fun (i, tables) => (i, { s with tables })) |>.mapError .table

def bakeRamp (s : Scene) (stops : List ColorStop) : Except SceneError (UInt32 × Scene) :=
  (s.ramps.add stops).map (fun (i, ramps) => (i, { s with ramps })) |>.mapError .bake

def addBatch (s : Scene) (pass : PassKind) (records : List InstanceRecord) : Scene :=
  { s with batches := s.batches ++ [⟨pass, records⟩] }

end Scene

end TileCompositor
