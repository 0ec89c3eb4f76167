/-!
# Samplers

A sampler says which texel stands for a coordinate outside a texture, and
whether four neighbouring texels are mixed. Coordinates outside are never
clamped first: the address mode alone decides.
-/
namespace TileCompositor

/-- What a texture shows outside its own area. -/
inductive AddressMode where
  /-- The nearest texel of the edge. -/
  | clampToEdge
  /-- The texture again. -/
  | periodic
  /-- The texture again, every other copy reflected. -/
  | reflected
  /-- Nothing, which is 0. -/
  | clampToBorder
deriving DecidableEq, Inhabited

/-- The name that graphics interfaces give to the mode. -/
def AddressMode.name : AddressMode → String
  | .clampToEdge => "ClampToEdge"
  | .periodic => "Repeat"
  | .reflected => "MirrorRepeat"
  | .clampToBorder => "ClampToBorder"

inductive FilterMode where
  | nearest
  | linear
deriving DecidableEq, Inhabited

def FilterMode.name : FilterMode → String
  | .nearest => "Nearest"
  | .linear => "Linear"

structure Sampler where
  address : AddressMode := .clampToEdge
  filter : FilterMode := .linear
deriving DecidableEq, Inhabited

/-- The texel that stands for coordinate `i` along a side of `n` texels, or
none where the border shows.
mirrors `address`, fragment/texture:109-126 -/
def AddressMode.resolve (mode : AddressMode) (n : Nat) (hn : 0 < n) (i : Int) : Option (Fin n) :=
  match mode with
  | .clampToEdge => some ⟨min i.toNat (n - 1), by omega⟩
  | .periodic =>
    have := Int.emod_nonneg i (b := n) (by omega)
    have := Int.emod_lt_of_pos i (b := n) (by omega)
    some ⟨(i % n).toNat, by omega⟩
  | .reflected =>
    let m := (i % (2 * n)).toNat
    if h : m < n then some ⟨m, h⟩ else some ⟨2 * n - 1 - m, by omega⟩
  | .clampToBorder =>
    if h : 0 ≤ i ∧ i < n then some ⟨i.toNat, by omega⟩ else none

end TileCompositor
