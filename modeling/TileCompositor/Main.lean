import TileCompositor.Image.Png
import TileCompositor.Studio.Run
/-!
# The studio as a program
-/
namespace TileCompositor.Studio

/-- Prints the lines of the outcome and gives its exit code. -/
def Outcome.report (o : Outcome) : IO UInt32 := do
  for line in o.stdout do IO.println line
  for line in o.stderr do IO.eprintln line
  return o.exitCode.toUInt32

end TileCompositor.Studio

open TileCompositor Studio in
def main (args : List String) : IO UInt32 := do
  let o := run args
  let code ← o.report
  let some (path, target) := o.image | return code
  try
    IO.FS.writeBinFile path (Png.encode target)
    return code
  catch e => (Outcome.failed s!"writing {path}" [toString e]).report
