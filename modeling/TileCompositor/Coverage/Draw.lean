import TileCompositor.Coverage.Target
import TileCompositor.Coverage.Triangle
import TileCompositor.Shading.Pass
/-!
# Drawing records into a target

A draw takes the records in order. A record that refers to a missing table
entry, or that the pass does not accept, is skipped and the draw goes on. The
fragments of the others are shaded by the pass, and the colours of those that
are not discarded are blended into the target one after the other.
-/
namespace TileCompositor

/-- Why a record was skipped. -/
inductive SkipReason where
  /-- A table entry of the record is missing. -/
  | unresolved (e : OutOfRange)
  /-- The pass looks up something that is missing. -/
  | rejected (pass : String) (e : OutOfRange)
deriving DecidableEq

def SkipReason.message (index : Nat) : SkipReason → String
  | .unresolved e => s!"skipping instance {index}: {e.message}"
  | .rejected pass e => s!"skipping instance {index} in {pass} pass: {e.message}"

/-- The counters of a draw. -/
structure DrawStats where
  drawn : Nat := 0
  skipped : Nat := 0
  shaded : Nat := 0
  discarded : Nat := 0
deriving DecidableEq

instance : Add DrawStats :=
  ⟨fun a b => ⟨a.drawn + b.drawn, a.skipped + b.skipped, a.shaded + b.shaded, a.discarded + b.discarded⟩⟩

inductive LogLevel where
  | warn
  | info
  | debug
deriving DecidableEq

def LogLevel.label : LogLevel → String
  | .warn => "WARN"
  | .info => "INFO"
  | .debug => "DEBUG"

structure LogLine where
  level : LogLevel
  text : String
deriving DecidableEq

/-- What a draw works with besides the target and the records. -/
structure DrawSettings where
  tables : UniformTables
  frame : FrameUniforms
  pass : Pass
  blend : BlendMode := .sourceOver

/-- What a draw leaves behind: the target, the counters, and the skipped
records with their numbers. -/
structure Drawing where
  target : Target
  stats : DrawStats := {}
  skips : List (Nat × SkipReason) := []

namespace DrawSettings

/-- The record with its table entries, or why it is skipped.
mirrors `draw`, raster/mod:44-56 -/
def accept (s : DrawSettings) (record : InstanceRecord) : Except SkipReason ResolvedInstance := do
  let i ← (record.resolve s.tables).mapError .unresolved
  (s.pass.validate i.flat).mapError (.rejected s.pass.name)
  return i

/-- The fragments of an instance that are not discarded, with their colours.
mirrors `raster_triangle`, raster/mod:145-156 -/
def shadeAll (s : DrawSettings) (flat : FlatVaryings) (fragments : List Fragment) :
    List (Fragment × Color) :=
  fragments.filterMap fun f =>
    (s.pass.shade { coord := f.coord, varyings := f.varyings, flat }).map fun color => (f, color)

/-- The drawing with the fragments of an instance added.
mirrors `draw`, raster/mod:58-62 -/
def drawInstance (s : DrawSettings) (d : Drawing) (i : ResolvedInstance) : Drawing :=
  let fragments := i.fragments s.frame d.target.width d.target.height
  let shaded := s.shadeAll i.flat fragments
  { target := shaded.foldl (fun t (f, color) => t.blendPixel f.x f.y color s.blend) d.target
    stats := d.stats +
      { drawn := 1, shaded := shaded.length, discarded := fragments.length - shaded.length }
    skips := d.skips }

/-- The drawing with a record, the `index`-th of its draw, drawn or skipped.
mirrors `draw`, raster/mod:44-62 -/
def drawRecord (s : DrawSettings) (d : Drawing) (index : Nat) (record : InstanceRecord) : Drawing :=
  match s.accept record with
  | .ok i => s.drawInstance d i
  | .error reason =>
    { d with stats := d.stats + { skipped := 1 }, skips := (index, reason) :: d.skips }

/-- The records drawn in order, the first of them having number `index`.
mirrors `draw`, raster/mod:43-63 -/
def drawFrom (s : DrawSettings) (d : Drawing) (index : Nat) : List InstanceRecord → Drawing
  | [] => d
  | record :: rest => s.drawFrom (s.drawRecord d index record) (index + 1) rest

/-- The records drawn into the target.
mirrors `draw`, raster/mod:33-74 -/
def draw (s : DrawSettings) (target : Target) (records : List InstanceRecord) : Drawing :=
  let d := s.drawFrom { target } 0 records
  { d with skips := d.skips.reverse }

theorem drawFrom_append (s : DrawSettings) (d : Drawing) (index : Nat) (xs ys : List InstanceRecord) :
    s.drawFrom d index (xs ++ ys) = s.drawFrom (s.drawFrom d index xs) (index + xs.length) ys := by
  induction xs generalizing d index with
  | nil => rfl
  | cons record rest ih =>
    rw [List.cons_append, drawFrom, ih, drawFrom, List.length_cons, Nat.add_assoc, Nat.add_comm 1]

end DrawSettings

/-- The line that sums up a draw. -/
def DrawStats.summary (stats : DrawStats) : String :=
  s!"{stats.drawn} instances drawn, {stats.skipped} skipped, " ++
    s!"{stats.shaded} fragments shaded, {stats.discarded} discarded"

/-- The log of a draw with the pass of the given name: a warning for each
skipped record, then the counters.
mirrors `draw`, raster/mod:65-72 -/
def Drawing.log (d : Drawing) (pass : String) : List LogLine :=
  d.skips.map (fun (index, reason) => ⟨.warn, reason.message index⟩) ++
    [⟨.debug, s!"{pass} pass: " ++ d.stats.summary⟩]

end TileCompositor
