/-!
# Whole-number rounding of binary32 values

Every binary32 value of magnitude at least 2^23 is a whole number, so the
four roundings below only have work to do below that bound. There the
magnitude fits a 32-bit word, and cutting it to a word and widening it again
loses exactly the fractional part. NaN and the infinities are returned as
they are, and a result of zero keeps the sign of the operand.

Conversions to whole numbers truncate and saturate; NaN becomes 0.
-/
namespace TileCompositor.Scalar

/-- The one NaN that computed values are compared and printed with. -/
def nan : Float32 := Float32.ofBits 0x7fc00000

/-- The infinity above all values. -/
def infinity : Float32 := Float32.ofBits 0x7f800000

/-- The largest finite value, (2 - 2^-23) * 2^127. -/
def greatest : Float32 := Float32.ofBits 0x7f7fffff

/-- The sign bit. It is also set on -0, where `x < 0` does not hold. -/
def signBit (x : Float32) : Bool :=
  x.toBits >>> 31 == 1

/-- A count as a float, to nearest. -/
def ofNat (n : Nat) : Float32 :=
  n.toUInt64.toFloat32

/-- The whole number next to `x` on the side of zero. -/
def trunc (x : Float32) : Float32 :=
  if x.abs < 8388608.0 then
    let m := x.abs.toUInt32.toFloat32
    if signBit x then -m else m
  else x

/-- The greatest whole number not above `x`. -/
def floor (x : Float32) : Float32 :=
  let t := trunc x
  if x < t then t - 1.0 else t

/-- The least whole number not below `x`. -/
def ceil (x : Float32) : Float32 :=
  let t := trunc x
  if t < x then t + 1.0 else t

/-- The nearest whole number; a half goes away from zero. The difference
`x - trunc x` is exact, so the test against one half is too. -/
def round (x : Float32) : Float32 :=
  let t := trunc x
  if (x - t).abs < 0.5 then t
  else if x < 0.0 then t - 1.0
  else if 0.0 < x then t + 1.0
  else t

/-- Truncation to a signed 64-bit number, saturating at both ends. -/
def toInt64Clamped (x : Float32) : Int :=
  let m := x.abs.toUInt64.toNat
  if x < 0.0 then -(min m 0x8000000000000000 : Nat) else (min m 0x7FFFFFFFFFFFFFFF : Nat)

/-- Truncation to a count; negative values and NaN give 0. -/
def toNatClamped (x : Float32) : Nat :=
  x.toUInt64.toNat

end TileCompositor.Scalar
