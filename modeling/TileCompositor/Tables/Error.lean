/-!
# What can go wrong with a lookup table

Tables have a fixed capacity and are addressed by indices decoded from
records, so a table can be full and an index can miss.
-/
namespace TileCompositor

/-- The tables that a frame is drawn with. -/
inductive TableKind where
  | transform
  | clipRect
  | tileParams
  | gradientRamp
deriving DecidableEq, Inhabited

/-- mirrors `fmt`, error:18-25 -/
def TableKind.label : TableKind → String
  | .transform => "transform"
  | .clipRect => "clip rect"
  | .tileParams => "tile params"
  | .gradientRamp => "gradient ramp"

/-- A table of the given capacity has no room for another entry. -/
structure TableFull where
  table : TableKind
  capacity : Nat
deriving DecidableEq

def TableFull.message (e : TableFull) : String :=
  s!"{e.table.label} table is full (capacity {e.capacity})"

/-- An index did not address an entry of its table. -/
structure OutOfRange where
  table : TableKind
  index : UInt32
  length : Nat
deriving DecidableEq

def OutOfRange.message (e : OutOfRange) : String :=
  s!"{e.table.label} index {e.index} out of range (len {e.length})"

end TileCompositor
