import TileCompositor.Gradient.Basic
import TileCompositor.Tables.Error
/-!
# Gradient ramps

A ramp is a gradient baked into a row of colours. A store of ramps has rows
of one width, addressed by the seven bits that a record has for them, so it
holds at most 128. A row is baked from stops in ascending order within
`[0, 1]`; sampling filters linearly between the two nearest colours.
-/
namespace TileCompositor

/-- Why a ramp or a store of ramps cannot be had. -/
inductive RampError where
  | tooFewStops (count : Nat)
  /-- The stop is below its predecessor or outside `[0, 1]`. -/
  | badStopOffset (index : Nat)
  | nonFinite (index : Nat)
  | badWidth (width : Nat)
  | full (e : TableFull)
deriving DecidableEq

def RampError.message : RampError → String
  | .tooFewStops count => s!"a gradient ramp needs at least 2 stops, got {count}"
  | .badStopOffset index => s!"gradient stop {index} is out of order or outside [0, 1]"
  | .nonFinite index => s!"gradient stop {index} has a non-finite component"
  | .badWidth width => s!"ramp width must be at least 2 texels, got {width}"
  | .full e => e.message

/-- The first fault of the stops from number `index` on, `previous` being the
offset before them.
mirrors `validate_stops`, fragment/ramp:100-109 -/
def findFault (previous : Float32) (index : Nat) : List ColorStop → Option RampError
  | [] => none
  | stop :: rest =>
    if !stop.isFinite then some (.nonFinite index)
    else if stop.offset < previous || 1.0 < stop.offset then some (.badStopOffset index)
    else findFault stop.offset (index + 1) rest

/-- The first fault of a list of stops.
mirrors `validate_stops`, fragment/ramp:96-111 -/
def checkStops (stops : List ColorStop) : Except RampError Unit :=
  if stops.length < 2 then .error (.tooFewStops stops.length)
  else match findFault 0.0 0 stops with
    | some fault => .error fault
    | none => .ok ()

/-- The colour at `u` between the stop `a` and the stops after it: that of the
segment whose end is the first not below `u`, or of the last stop. A segment
of no length shows its end.
mirrors `color_at`, fragment/ramp:118-125 -/
def colorBetween (a : ColorStop) (u : Float32) : List ColorStop → Color
  | [] => a.color
  | b :: rest =>
    if u <= b.offset then
      let length := b.offset - a.offset
      if length < 1e-9 then b.color else a.color.lerp b.color ((u - a.offset) / length)
    else colorBetween b u rest

/-- The colour of a gradient at `u`; without stops there is none.
mirrors `color_at`, fragment/ramp:113-126 -/
def colorAt (u : Float32) : List ColorStop → Color
  | [] => Color.transparent
  | first :: rest => if u <= first.offset then first.color else colorBetween first u rest

/-- A store of ramps. -/
structure GradientRamps where
  width : Nat
  two_le_width : 2 ≤ width
  maxRows : Nat
  rows : Array (Vector Color width) := #[]

namespace GradientRamps

/-- The rows that a seven-bit address reaches. -/
def addressable : Nat := 128

/-- A store without rows; its rows are as wide as given, and no more than an
address reaches.
mirrors `new`, fragment/ramp:20-29 -/
def new (width maxRows : Nat) : Except RampError GradientRamps :=
  if h : 2 ≤ width then .ok { width, two_le_width := h, maxRows := min maxRows addressable }
  else .error (.badWidth width)

/-- The last column. -/
def last (r : GradientRamps) : Nat := r.width - 1

theorem last_lt (r : GradientRamps) : r.last < r.width := by
  have := r.two_le_width
  unfold last
  omega

/-- The row baked from `stops`: column `i` has the colour at `i / last`.
mirrors `add`, fragment/ramp:65-67 -/
def bake (r : GradientRamps) (stops : List ColorStop) : Vector Color r.width :=
  Vector.ofFn fun i => colorAt (Scalar.ofNat i / Scalar.ofNat r.last) stops

/-- The store with the row baked from `stops` at its end, and the index of
that row.
mirrors `add`, fragment/ramp:54-69 -/
def add (r : GradientRamps) (stops : List ColorStop) : Except RampError (UInt32 × GradientRamps) := do
  checkStops stops
  if r.rows.size < r.maxRows then
    return (r.rows.size.toUInt32, { r with rows := r.rows.push (r.bake stops) })
  else throw (.full ⟨.gradientRamp, r.maxRows⟩)

/-- The store without its rows.
mirrors `clear`, fragment/ramp:45-47 -/
def clear (r : GradientRamps) : GradientRamps := { r with rows := #[] }

/-- All rows one behind the other, as the ramp texture holds them. -/
def texels (r : GradientRamps) : Array Color := r.rows.flatMap Vector.toArray

@[simp] theorem rows_clear (r : GradientRamps) : r.clear.rows = #[] := rfl

theorem size_texels (r : GradientRamps) : r.texels.size = r.rows.size * r.width := by
  have h : r.rows.map (fun row => row.toArray.size) = Array.replicate r.rows.size r.width := by
    apply Array.ext <;> simp
  unfold texels
  rw [Array.size_flatMap, h, Array.sum_replicate_nat]

/-- The row at `index`. `row?` finds it in machine words among the texels.
mirrors `row`, fragment/ramp:71-80 -/
def row (r : GradientRamps) (index : UInt32) : Except OutOfRange (Vector Color r.width) :=
  match r.rows[index.toNat]? with
  | some row => .ok row
  | none => .error ⟨.gradientRamp, index, r.rows.size⟩

/-- The column to the left of position `x`; NaN and what lies before the
first column give the first.
mirrors `sample`, fragment/ramp:90 -/
def leftColumn (r : GradientRamps) (x : Float32) : Nat :=
  min (Scalar.toNatClamped (Scalar.maxNum (Scalar.floor x) 0.0)) r.last

/-- The colour of `row` at offset `t`, filtered linearly between the two
nearest columns.
mirrors `sample`, fragment/ramp:88-92 -/
def sampleRow (r : GradientRamps) (row : Vector Color r.width) (t : Float32) (extend : Extend) : Color :=
  have := r.last_lt
  let x := extend.apply t * Scalar.ofNat r.last
  let left := r.leftColumn x
  let right := min (left + 1) r.last
  have hl : left < r.width := by simp only [left, leftColumn]; omega
  have hr : right < r.width := by simp only [right]; omega
  row[left].lerp row[right] (x - Scalar.ofNat left)

/-- The colour of the row at `index` at gradient offset `t`; in machine words, `sample?`.
mirrors `sample`, fragment/ramp:86-93 -/
def sample (r : GradientRamps) (index : UInt32) (t : Float32) (extend : Extend) :
    Except OutOfRange Color :=
  (r.row index).map fun row => r.sampleRow row t extend

/-- A step of a producer. -/
inductive Edit where
  | add (stops : List ColorStop)
  | clear

/-- What a step answers. -/
inductive Answer where
  /-- The index of the row that was added. -/
  | index (i : UInt32)
  | rejected (e : RampError)
  | cleared
deriving DecidableEq

/-- One step; one that is rejected leaves the store as it was. -/
def edit (r : GradientRamps) : Edit → Answer × GradientRamps
  | .add stops =>
    match r.add stops with
    | .ok (i, r') => (.index i, r')
    | .error e => (.rejected e, r)
  | .clear => (.cleared, r.clear)

/-- The store after a sequence of steps. -/
def edits (r : GradientRamps) (steps : List Edit) : GradientRamps :=
  steps.foldl (fun r step => (r.edit step).2) r

end GradientRamps

end TileCompositor
