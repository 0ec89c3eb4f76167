import TileCompositor.Scalar.Integral
/-!
# Decimal text of binary32 values

Reading takes a sign, digits with an optional point, and an optional power of
ten, or one of the words for infinity and NaN in any case; the value is the
nearest one. Writing uses the fewest digits that read back to the value, in
positional notation however large or small it is.
-/
namespace TileCompositor.Scalar
open Float.Model (UnpackedFloat)

/-- The number written by decimal digits. -/
def digitsValue (digits : List Char) : Nat :=
  digits.foldl (fun n c => 10 * n + (c.toNat - '0'.toNat)) 0

/-- A whole number with an optional sign. -/
def readInt? (text : List Char) : Option Int :=
  let (negative, digits) := match text with
    | '-' :: rest => (true, rest)
    | '+' :: rest => (false, rest)
    | rest => (false, rest)
  if digits.isEmpty || !digits.all Char.isDigit then none
  else some (if negative then -(digitsValue digits : Int) else digitsValue digits)

/-- The power of ten behind the digits: nothing, or a mark and a number. -/
def readExponent? : List Char → Option Int
  | [] => some 0
  | c :: rest => if c = 'e' || c = 'E' then readInt? rest else none

/-- The value nearest to `n * 10^power`. A power far above or below those of
all values is not carried out. -/
def ofDecimal (n : Nat) (power : Int) : Float32 :=
  let top := (Nat.toDigits 10 n).length + power
  if n = 0 || top < -50 then 0.0
  else if 50 < top then infinity
  else Float32.ofScientific n (power < 0) power.natAbs

/-- A decimal without a sign. -/
def readMagnitude? (text : List Char) : Option Float32 := do
  let whole := text.takeWhile Char.isDigit
  let rest := text.dropWhile Char.isDigit
  let (places, rest) := match rest with
    | '.' :: rest => (rest.takeWhile Char.isDigit, rest.dropWhile Char.isDigit)
    | rest => ([], rest)
  if whole.isEmpty && places.isEmpty then none
  else
    let power := (← readExponent? rest) - places.length
    return ofDecimal (digitsValue (whole ++ places)) power

/-- The value that a text stands for. -/
def read? (text : String) : Option Float32 :=
  let (negative, body) := match text.toList with
    | '-' :: rest => (true, rest)
    | '+' :: rest => (false, rest)
    | rest => (false, rest)
  let word := String.ofList (body.map Char.toLower)
  let magnitude :=
    if word == "inf" || word == "infinity" then some infinity
    else if word == "nan" then some nan
    else readMagnitude? body
  magnitude.map fun x => if negative then -x else x

/-- Whether `d * 10^k` reads back to the value `m * 2^e`: it is nearer to it
than to its neighbours, or halfway and `m` is even. Below the least
significand of a binade the neighbour is only half as far. -/
def readsBack (m : Nat) (e : Int) (d : Nat) (k : Int) : Bool :=
  let below := if m = 0x800000 && -149 < e then 1 else 2
  -- everything in units of 2^(e - 2), both sides made whole
  let scale (n : Nat) (p q : Int) : Nat := (n * Nat.pow 10 p.toNat) <<< q.toNat
  let x := scale d k (2 - e)
  let low := scale (4 * m - below) (-k) (e - 2)
  let high := scale (4 * m + 2) (-k) (e - 2)
  if m % 2 = 0 then low ≤ x && x ≤ high else low < x && x < high

/-- The multiple of `10^k` nearest to `m * 2^e` that reads back to it, if one
does; of two equally near the larger. -/
def onGrid? (m : Nat) (e : Int) (k : Int) : Option (Nat × Int) :=
  let num := (m * Nat.pow 10 (-k).toNat) <<< e.toNat
  let den := Nat.pow 10 k.toNat <<< (-e).toNat
  let d := num / den
  let nearer := if 2 * (num % den) < den then [d, d + 1] else [d + 1, d]
  (nearer.find? fun d => readsBack m e d k).map fun d => (d, k)

/-- The decimal with the fewest digits that reads back to `m * 2^e`, as digits
and a power of ten. The powers tried reach from above the greatest value to
nine digits below the least. -/
def fewestDigits (m : Nat) (e : Int) : Nat × Int :=
  ((List.range 100).findSome? fun i : Nat => onGrid? m e (39 - (i : Int))).getD (0, 0)

/-- The positional notation of `d * 10^k`. -/
def positional (d : Nat) (k : Int) : String :=
  let digits := Nat.toDigits 10 d
  let text :=
    if 0 ≤ k then digits ++ List.replicate k.toNat '0'
    else
      let places := k.natAbs
      if places < digits.length then
        digits.take (digits.length - places) ++ '.' :: digits.drop (digits.length - places)
      else '0' :: '.' :: List.replicate (places - digits.length) '0' ++ digits
  String.ofList text

/-- The text of a value. -/
def write (x : Float32) : String :=
  let signed (negative : Bool) (s : String) : String := if negative then "-" ++ s else s
  match x.toModel.unpack with
  | .notANumber => "NaN"
  | .infinity _ => signed (signBit x) "inf"
  | .zero _ => signed (signBit x) "0"
  | .finite _ m e _ =>
    let (d, k) := fewestDigits m e
    signed (signBit x) (positional d k)

end TileCompositor.Scalar
