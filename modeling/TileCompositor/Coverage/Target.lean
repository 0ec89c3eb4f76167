import TileCompositor.Color.Blend
import TileCompositor.Geometry.Matrix
import TileCompositor.Texture.Alpha
/-!
# Render targets

A target is a rectangle of colours, row by row from the top.
-/
namespace TileCompositor

structure Target where
  width : UInt32
  height : UInt32
  pixels : Array Color
  size_eq : pixels.size = width.toNat * height.toNat

namespace Target

/-- A target with the same colour everywhere.
mirrors `filled`, raster/target:41-47 -/
def filled (width height : UInt32) (c : Color) : Target where
  width := width
  height := height
  pixels := Array.replicate (width.toNat * height.toNat) c
  size_eq := by simp

/-- A fresh target, transparent everywhere.
mirrors `new`, raster/target:37-39 -/
def new (width height : UInt32) : Target := filled width height Color.transparent

def viewport (t : Target) : Viewport := ⟨t.width.toFloat32, t.height.toFloat32⟩

/-- The place of column `x` and row `y` in the data.
mirrors `offset`, raster/target:86-88 -/
def offset (t : Target) (x y : Nat) : Nat := y * t.width.toNat + x

/-- The colour at the place that column `x` and row `y` lead to. Only that
place is checked: a column beyond the width reads from a row below.
mirrors `pixel`, raster/target:66-68 -/
def pixel (t : Target) (x y : Nat) : Except IndexOutOfBounds Color :=
  match t.pixels[t.offset x y]? with
  | some c => .ok c
  | none => .error ⟨t.pixels.size, t.offset x y⟩

/-- The target with `src` blended into the pixel at column `x` and row `y`.
mirrors `blend_pixel`, raster/target:75-78 -/
def blendPixel (t : Target) (x y : Nat) (src : Color) (mode : BlendMode) : Target where
  width := t.width
  height := t.height
  pixels := t.pixels.modify (t.offset x y) fun dst => mode.blend src dst
  size_eq := by simpa using t.size_eq

@[simp] theorem width_blendPixel (t : Target) (x y : Nat) (src : Color) (mode : BlendMode) :
    (t.blendPixel x y src mode).width = t.width := rfl

@[simp] theorem height_blendPixel (t : Target) (x y : Nat) (src : Color) (mode : BlendMode) :
    (t.blendPixel x y src mode).height = t.height := rfl

@[simp] theorem offset_blendPixel (t : Target) (x y : Nat) (src : Color) (mode : BlendMode)
    (x' y' : Nat) : (t.blendPixel x y src mode).offset x' y' = t.offset x' y' := rfl

/-- The pixels of the target have places in the data. -/
theorem offset_lt (t : Target) {x y : Nat} (hx : x < t.width.toNat) (hy : y < t.height.toNat) :
    t.offset x y < t.pixels.size := by
  have := Nat.mul_le_mul_right t.width.toNat (Nat.succ_le_of_lt hy)
  rw [t.size_eq, offset, Nat.mul_comm t.width.toNat]
  rw [Nat.succ_mul] at this
  omega

/-- A read succeeds exactly at a place in the data. -/
theorem exists_pixel_iff (t : Target) {x y : Nat} :
    (∃ c, t.pixel x y = .ok c) ↔ t.offset x y < t.pixels.size := by
  unfold pixel
  by_cases h : t.offset x y < t.pixels.size
  · rw [Array.getElem?_eq_getElem h]
    exact iff_of_true ⟨_, rfl⟩ h
  · rw [Array.getElem?_eq_none (Nat.not_lt.mp h)]
    exact iff_of_false nofun h

/-- Within the width, different pixels have different places. -/
theorem offset_inj (t : Target) {x y x' y' : Nat} (h : x < t.width.toNat) (h' : x' < t.width.toNat) :
    t.offset x y = t.offset x' y' ↔ x = x' ∧ y = y' := by
  constructor
  · intro he
    have hy : y = y' := by
      have := congrArg (· / t.width.toNat) he
      simpa [offset, Nat.mul_add_div (Nat.zero_lt_of_lt h), Nat.mul_comm y, Nat.mul_comm y',
        Nat.div_eq_of_lt h, Nat.div_eq_of_lt h'] using this
    subst hy
    exact ⟨Nat.add_left_cancel he, rfl⟩
  · rintro ⟨rfl, rfl⟩
    rfl

theorem pixel_blendPixel_self (t : Target) (x y : Nat) (src : Color) (mode : BlendMode) :
    (t.blendPixel x y src mode).pixel x y = (t.pixel x y).map fun dst => mode.blend src dst := by
  have h : (t.blendPixel x y src mode).pixels[t.offset x y]? =
      t.pixels[t.offset x y]?.map fun dst => mode.blend src dst := by
    simp [blendPixel, Array.getElem?_modify]
  unfold pixel
  rw [offset_blendPixel, h]
  cases t.pixels[t.offset x y]? <;> simp [blendPixel, Except.map]

theorem pixel_blendPixel_of_ne (t : Target) {x y x' y' : Nat} (src : Color) (mode : BlendMode)
    (h : t.offset x y ≠ t.offset x' y') :
    (t.blendPixel x y src mode).pixel x' y' = t.pixel x' y' := by
  unfold pixel
  rw [offset_blendPixel]
  simp [blendPixel, Array.getElem?_modify, h]

/-- The rows of the target from the top. -/
def rows (t : Target) : List (List Color) :=
  (List.range t.height.toNat).map fun y =>
    (t.pixels.extract (t.offset 0 y) (t.offset 0 (y + 1))).toList

/-- All pixels quantised, row by row.
mirrors `to_rgba8`, raster/target:81-83 -/
def toRgba8 (t : Target) : List Rgba8 := t.pixels.toList.map Color.toRgba8

end Target

end TileCompositor
