/-!
# Minimum, maximum and clamping with NaN

A NaN operand of `minNum` or `maxNum` is ignored in favour of the other one,
and two zeros of different sign count as equal, so the second operand is taken.
`clamp` compares with both bounds and changes only a value that is beyond
one: NaN and -0 pass through.
-/
namespace TileCompositor.Scalar

/-- The smaller operand, or the other one if one of them is NaN. -/
def minNum (a b : Float32) : Float32 :=
  if b.isNaN then a else if a < b then a else b

/-- The larger operand, or the other one if one of them is NaN. -/
def maxNum (a b : Float32) : Float32 :=
  if b.isNaN then a else if b < a then a else b

/-- `x` brought between `lo` and `hi`. -/
def clamp (x lo hi : Float32) : Float32 :=
  let x := if x < lo then lo else x
  if hi < x then hi else x

end TileCompositor.Scalar
