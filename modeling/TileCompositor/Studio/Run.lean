import TileCompositor.Scene.Demo
import TileCompositor.Studio.Options
/-!
# The studio

The studio draws a demo scene and writes it as an image. `Studio.run` is the
whole program short of the outside world: from the arguments to the exit code,
the lines to print and the image to write.
-/
namespace TileCompositor.Studio

/-- What the program leaves behind. -/
structure Outcome where
  exitCode : UInt8 := 0
  stdout : List String := []
  stderr : List String := []
  /-- The image to be written and the file to write it to. -/
  image : Option (String × Target) := none

/-- An error with its causes, the outermost first. -/
def Outcome.failed (message : String) (causes : List String) : Outcome :=
  let numbered := causes.zipIdx.map fun (cause, i) => s!"    {i}: {cause}"
  let lines := match causes with
    | [] => []
    | [cause] => ["", "Caused by:", "    " ++ cause]
    | _ => "" :: "Caused by:" :: numbered
  { exitCode := 1, stderr := ("Error: " ++ message) :: lines }

/-- The text filled with blanks to the given width. -/
def padRight (text : String) (width : Nat) : String :=
  text ++ String.ofList (List.replicate (width - text.length) ' ')

def helpLines : List String :=
  ["Render a tile compositor demo scene to a PNG", "", "Options:"] ++
    CliOption.all.map fun option => "  --" ++ padRight option.long 12 ++ option.summary

def sceneLines : List String :=
  "Available scenes:" :: SceneKind.all.map fun kind =>
    "  " ++ padRight kind.name 10 ++ " " ++ kind.describe

/-- The scene drawn as requested.
mirrors `main`, main:68-81 -/
def draw (r : Request) : Outcome :=
  let config : PipelineConfig := { devicePixelRatio := r.devicePixelRatio, dithering := r.dither }
  let target := Target.new r.width r.height
  match Demo.build r.scene target.viewport config r.periodic with
  | .error e => .failed s!"building {r.scene.title} scene" e.causes
  | .ok scene =>
    let (target, stats) := scene.render config target
    { stdout := [s!"{r.scene.title}: " ++ stats.summary], image := some (r.output, target) }

/-- The request carried out.
mirrors `main`, main:52-81 -/
def perform (r : Request) : Outcome :=
  if r.list then { stdout := sceneLines }
  else if r.width = 0 || r.height = 0 then
    .failed s!"target size must be non-zero, got {r.width}x{r.height}" []
  else if !(r.devicePixelRatio.isFinite && 0.0 < r.devicePixelRatio) then
    .failed ("device pixel ratio must be positive, got " ++ Scalar.write r.devicePixelRatio) []
  else draw r

/-- The program on the given arguments.
mirrors `main`, main:48-93 -/
def run (args : List String) : Outcome :=
  match applyOptions {} [] (splitOptions args) with
  | .error e => { exitCode := 2, stderr := ["error: " ++ e.message] }
  | .ok none => { stdout := helpLines }
  | .ok (some r) => perform r

end TileCompositor.Studio
