import TileCompositor.Coverage.Draw
import TileCompositor.Scene.Config
/-!
# Scenes

A scene holds what a frame needs: the tables, the ramps and the mask, and
batches of records in the order in which they are drawn, each with its pass.
-/
namespace TileCompositor

/-- The pass that a batch is drawn with. -/
inductive PassKind where
  | color
  | text
  | gradient
deriving DecidableEq

structure Batch where
  pass : PassKind
  records : List InstanceRecord

structure Scene where
  tables : UniformTables
  ramps : GradientRamps
  mask : AlphaTexture
  batches : List Batch := []

namespace Scene

/-- The pass of a batch with the resources of the scene.
mirrors `render`, main:102-111 -/
def passOf (scene : Scene) (config : PipelineConfig) : PassKind → Pass
  | .color => .color
  | .text => .text scene.mask config.maskSampler
  | .gradient => .gradient scene.ramps config.dithering

/-- What a batch is drawn with on a target of the given viewport.
mirrors `render`, main:96-104 -/
def settings (scene : Scene) (config : PipelineConfig) (viewport : Viewport) (blend : BlendMode)
    (pass : PassKind) : DrawSettings where
  tables := scene.tables
  frame := { globalTransform := viewport.projection, devicePixelRatio := config.devicePixelRatio }
  pass := scene.passOf config pass
  blend := blend

/-- The drawings of the given batches, each on the target that the one before
leaves.
mirrors `render`, main:107-118 -/
def drawBatches (scene : Scene) (config : PipelineConfig) (blend : BlendMode) (target : Target) :
    List Batch → Target × List Drawing
  | [] => (target, [])
  | batch :: rest =>
    let d := (scene.settings config target.viewport blend batch.pass).draw target batch.records
    let (final, later) := scene.drawBatches config blend d.target rest
    (final, d :: later)

/-- All batches drawn in order: the target after them, and the counters of
all of them together.
mirrors `render`, main:95-120 -/
def render (scene : Scene) (config : PipelineConfig) (target : Target) (blend : BlendMode := .sourceOver) :
    Target × DrawStats :=
  let (final, drawings) := scene.drawBatches config blend target scene.batches
  (final, drawings.foldl (fun total d => total + d.stats) {})

end Scene

end TileCompositor
