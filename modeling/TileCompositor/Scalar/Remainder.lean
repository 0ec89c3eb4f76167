import TileCompositor.Scalar.Integral
/-!
# Remainders of binary32 values

A finite value is a whole significand times a power of two. Written with the
smaller of the two exponents, dividend and divisor are both whole multiples
of one power, and the remainder of the multiples is again a binary32 value:
it is not above the dividend and below the divisor. `truncMod` is therefore
exact. `euclidMod` shifts a negative remainder up by one period, which rounds.
-/
namespace TileCompositor.Scalar
open Float.Model (UnpackedFloat Format)

/-- The remainder of the division whose quotient is truncated. It has the
sign of `a` and is exact; what is nearer to zero than `b` is its own
remainder. For infinite `a` and for zero `b` there is none. -/
def truncMod (a b : Float32) : Float32 :=
  if a.abs < b.abs then a
  else match a.toModel.unpack, b.toModel.unpack with
    | .finite s m e _, .finite _ n f _ =>
      let g := min e f
      let r := (m <<< (e - g).toNat) % (n <<< (f - g).toNat)
      Float32.ofModel (Float32.Model.pack (UnpackedFloat.normalize Format.binary32 (s.apply r) g s))
    | _, _ => nan

/-- The remainder moved into the period `[0, |b|)`. A remainder so close
below zero that the sum rounds gives `|b|` itself. -/
def euclidMod (a b : Float32) : Float32 :=
  let r := truncMod a b
  if r < 0.0 then r + b.abs else r

end TileCompositor.Scalar
