import TileCompositor.Geometry.Vector
import TileCompositor.Texture.Sampler
/-!
# Alpha textures

A texture holds one byte a texel, row by row from the top; its coverage is the
byte as a fraction of 255. Whole coordinates outside the texture are resolved
by the address mode, and positions between texels by the filter.
-/
namespace TileCompositor

/-- Why texels do not make a texture. -/
inductive TextureError where
  | sizeMismatch (width height : UInt32) (actual : Nat)
  | empty (width height : UInt32)
deriving DecidableEq

def TextureError.message : TextureError → String
  | .sizeMismatch width height actual =>
    s!"texture is {width}x{height} but {actual} texels were supplied"
  | .empty width height => s!"texture dimensions must be non-zero, got {width}x{height}"

/-- An access beyond the end of stored data. -/
structure IndexOutOfBounds where
  length : Nat
  index : Nat
deriving DecidableEq

def IndexOutOfBounds.message (e : IndexOutOfBounds) : String :=
  s!"index out of bounds: the len is {e.length} but the index is {e.index}"

structure AlphaTexture where
  width : UInt32
  height : UInt32
  texels : Array UInt8
  width_pos : 0 < width.toNat
  height_pos : 0 < height.toNat
  size_eq : texels.size = width.toNat * height.toNat

namespace AlphaTexture

/-- The texture of the given texels, row by row.
mirrors `new`, fragment/texture:37-45 -/
def new (width height : UInt32) (texels : Array UInt8) : Except TextureError AlphaTexture :=
  if h : 0 < width.toNat ∧ 0 < height.toNat then
    if hs : texels.size = width.toNat * height.toNat then
      .ok ⟨width, height, texels, h.1, h.2, hs⟩
    else .error (.sizeMismatch width height texels.size)
  else .error (.empty width height)

/-- The texture whose texel at column `x` and row `y` is `f x y`.
mirrors `from_fn`, fragment/texture:48-56 -/
def ofFn (width height : UInt32) (f : UInt32 → UInt32 → UInt8) : Except TextureError AlphaTexture :=
  let row (y : Nat) : List UInt8 := (List.range width.toNat).map fun x => f x.toUInt32 y.toUInt32
  new width height ((List.range height.toNat).flatMap row).toArray

/-- A byte as a fraction of 255. -/
def coverage (byte : UInt8) : Float32 := byte.toFloat32 / 255.0

theorem index_lt (t : AlphaTexture) (x : Fin t.width.toNat) (y : Fin t.height.toNat) :
    y.val * t.width.toNat + x.val < t.texels.size := by
  have hy := Nat.mul_le_mul_right t.width.toNat (Nat.succ_le_of_lt y.isLt)
  have hx := x.isLt
  rw [t.size_eq, Nat.mul_comm t.width.toNat]
  rw [Nat.succ_mul] at hy
  omega

/-- The coverage at column `x` and row `y`.
mirrors `texel`, fragment/texture:70-72 -/
def texel (t : AlphaTexture) (x : Fin t.width.toNat) (y : Fin t.height.toNat) : Float32 :=
  have := t.index_lt x y
  coverage t.texels[y.val * t.width.toNat + x.val]

/-- The coverage at the place in the data that `x` and `y` lead to. Only that
place is checked: a column beyond the width reads from a row below.
mirrors `texel`, fragment/texture:70-72 -/
def texelAt (t : AlphaTexture) (x y : Nat) : Except IndexOutOfBounds Float32 :=
  let index := y * t.width.toNat + x
  match t.texels[index]? with
  | some byte => .ok (coverage byte)
  | none => .error ⟨t.texels.size, index⟩

/-- The coverage at whole coordinates anywhere in the plane.
mirrors `fetch`, fragment/texture:94-100 -/
def fetch (t : AlphaTexture) (x y : Int) (mode : AddressMode) : Float32 :=
  match mode.resolve t.width.toNat t.width_pos x, mode.resolve t.height.toNat t.height_pos y with
  | some x, some y => t.texel x y
  | _, _ => 0.0

/-- The number at `t` on the way from `a` to `b`.
mirrors `lerp`, fragment/texture:104-106 -/
def mix (a b t : Float32) : Float32 := a + (b - a) * t

/-- The texture at `uv`, where the texture covers the unit square.
mirrors `sample`, fragment/texture:76-92 -/
def sample (t : AlphaTexture) (uv : Vec2) (s : Sampler) : Float32 :=
  let x := uv.x * t.width.toFloat32
  let y := uv.y * t.height.toFloat32
  match s.filter with
  | .nearest =>
    t.fetch (Scalar.toInt64Clamped (Scalar.floor x)) (Scalar.toInt64Clamped (Scalar.floor y)) s.address
  | .linear =>
    let x := x - 0.5
    let y := y - 0.5
    let left := Scalar.floor x
    let top := Scalar.floor y
    let i := Scalar.toInt64Clamped left
    let j := Scalar.toInt64Clamped top
    let upper := mix (t.fetch i j s.address) (t.fetch (i + 1) j s.address) (x - left)
    let lower := mix (t.fetch i (j + 1) s.address) (t.fetch (i + 1) (j + 1) s.address) (x - left)
    mix upper lower (y - top)

end AlphaTexture

end TileCompositor
