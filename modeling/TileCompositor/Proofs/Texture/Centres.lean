import TileCompositor.Proofs.Gradient.Texels
import TileCompositor.Proofs.Texture.Addressing
/-!
# Texels and their centres

A texture that is made from a function holds its values row by row, so the texel at a column and a
row is the value there. The centre of a texel as a fraction of the side is rounded, and so is what
the side makes of it again. Along sides of at most 2^22 texels the first rounding moves the centre by
a quarter of a texel at most, and the second one does not lead out of the texel. So sampling without
a filter finds the texel whose centre it is given, be its side a power of two or not.

Results:
* `toInt64Clamped_floor_texelCentre`: the coordinate of a centre.
* `AlphaTexture.exists_ofFn`: what a texture made from a function holds.
* `AlphaTexture.ofFn_sample_centre`: sampling it at the centres of its texels.
-/
namespace TileCompositor
open Binary32

/-! ## Centres -/

/-- The centre of texel number `i` along a side of `n` texels, as a fraction of the side. -/
def texelCentre (n i : UInt32) : Float32 := (i.toFloat32 + 0.5) / n.toFloat32

section Centre
variable {n i : UInt32} (hi : i.toNat < n.toNat) (hn : n.toNat ≤ 2 ^ 22)
include hi hn

theorem side_bounds : (i.toNat : ℚ) + 1 ≤ n.toNat ∧ (0 : ℚ) < n.toNat ∧ (n.toNat : ℚ) ≤ 2 ^ 22 :=
  ⟨by exact_mod_cast hi, by exact_mod_cast Nat.zero_lt_of_lt hi, by exact_mod_cast hn⟩

theorem denotes_texelCentre :
    Denotes (texelCentre n i) (nearest ((i.toNat + 1 / 2) / n.toNat)) := by
  obtain ⟨hle, hpos, -⟩ := side_bounds hi hn
  have hmiddle : Denotes (i.toFloat32 + 0.5) (i.toNat + 1 / 2) :=
    (denotes_toFloat32_of_le (by omega)).add_exact denotes_half
      (isValue_of_eq (2 * i.toNat + 1) 1 (by push_cast; ring) (by rw [abs_le]; omega) (by norm_num))
  have hfraction : ((i.toNat : ℚ) + 1 / 2) / n.toNat ≤ 1 := (div_le_one hpos).mpr (by linarith)
  exact hmiddle.div (denotes_toFloat32_of_le (by omega)) hpos.ne'
    (abs_nearest_lt_of_unit (by positivity) (nearest_le representable_one hfraction))

/-- The centre is moved by a quarter of a texel at most. -/
theorem abs_nearest_centre_mul_sub_le :
    |nearest ((i.toNat + 1 / 2) / n.toNat) * n.toNat - (i.toNat + 1 / 2)| ≤ 1 / 4 := by
  obtain ⟨hle, hpos, hside⟩ := side_bounds hi hn
  have herr := abs_nearest_sub_le_part (((i.toNat : ℚ) + 1 / 2) / n.toNat)
  rw [abs_of_nonneg (a := ((i.toNat : ℚ) + 1 / 2) / n.toNat) (by positivity)] at herr
  have hscaled := mul_le_mul_of_nonneg_right herr hpos.le
  rw [← abs_of_pos hpos, ← abs_mul, abs_of_pos hpos, sub_mul, add_mul, div_mul_cancel₀ _ hpos.ne',
    div_right_comm, div_mul_cancel₀ _ hpos.ne'] at hscaled
  calc |nearest ((i.toNat + 1 / 2) / n.toNat) * n.toNat - (i.toNat + 1 / 2)|
      ≤ (i.toNat + 1 / 2) / 2 ^ 24 + 1 / 2 ^ 150 * n.toNat := hscaled
    _ ≤ (2 ^ 22 - 1 / 2) / 2 ^ 24 + 1 / 2 ^ 150 * 2 ^ 22 := by gcongr; linarith
    _ ≤ 1 / 4 := by norm_num

/-- Along the side the rounded centre is still in its texel. -/
theorem denotes_texelCentre_mul :
    ∃ q, Denotes (texelCentre n i * n.toFloat32) q ∧ (i.toNat : ℚ) ≤ q ∧ q ≤ i.toNat + 3 / 4 := by
  obtain ⟨hbefore, -, hside⟩ := side_bounds hi hn
  obtain ⟨hlo, hhi⟩ := abs_le.mp (abs_nearest_centre_mul_sub_le hi hn)
  have hstart : IsValue (i.toNat : ℚ) := by
    exact_mod_cast isValue_intCast (m := i.toNat) (by rw [abs_le]; omega)
  have hend : IsValue ((i.toNat : ℚ) + 3 / 4) :=
    isValue_of_eq (4 * i.toNat + 3) 2 (by push_cast; ring) (by rw [abs_le]; omega) (by norm_num)
  have hge : (i.toNat : ℚ) ≤ nearest (nearest ((i.toNat + 1 / 2) / n.toNat) * n.toNat) :=
    le_nearest hstart.representable (by linarith)
  have hle : nearest (nearest ((i.toNat + 1 / 2) / n.toNat) * n.toNat) ≤ i.toNat + 3 / 4 :=
    nearest_le hend.representable (by linarith)
  refine ⟨_, (denotes_texelCentre hi hn).mul (denotes_toFloat32_of_le (by omega)) ?_, hge, hle⟩
  rw [abs_of_nonneg ((Nat.cast_nonneg _).trans hge)]
  linarith

theorem toInt64Clamped_floor_texelCentre :
    Scalar.toInt64Clamped (Scalar.floor (texelCentre n i * n.toFloat32)) = i.toNat := by
  obtain ⟨q, hq, hge, hle⟩ := denotes_texelCentre_mul hi hn
  have hfloor : ⌊q⌋ = (i.toNat : ℤ) := by
    rw [Int.floor_eq_iff]
    constructor
    · exact_mod_cast hge
    · push_cast
      linarith
  have hlt := i.toNat_lt
  have hdenotes := Scalar.denotes_floor hq
  rw [hfloor] at hdenotes
  exact Scalar.toInt64Clamped_intCast hdenotes (by rw [abs_lt]; omega)

theorem reaches_texelCentre : Reaches (texelCentre n i) n := by
  refine ⟨_, denotes_texelCentre hi hn, .inl ?_⟩
  obtain ⟨hle, -, hside⟩ := side_bounds hi hn
  obtain ⟨hlo, hhi⟩ := abs_le.mp (abs_nearest_centre_mul_sub_le hi hn)
  have hnonneg : (0 : ℚ) ≤ i.toNat := Nat.cast_nonneg _
  rw [abs_lt]
  constructor <;> linarith

end Centre

/-! ## Textures made from a function -/

namespace AlphaTexture
variable {width height : UInt32}

/-- Neither side may be empty. What is held is the value at each column of each row. -/
theorem exists_ofFn (hw : 0 < width.toNat) (hh : 0 < height.toNat) (f : UInt32 → UInt32 → UInt8) :
    ∃ t, ofFn width height f = .ok t ∧ t.width = width ∧ t.height = height ∧
      ∀ x y : UInt32, x.toNat < width.toNat → y.toNat < height.toNat →
        t.texels[y.toNat * width.toNat + x.toNat]? = some (f x y) := by
  have hrow (y : Nat) :
      ((List.range width.toNat).map fun x => f x.toUInt32 y.toUInt32).length = width.toNat := by
    rw [List.length_map, List.length_range]
  have hsize : ((List.range height.toNat).flatMap fun y =>
      (List.range width.toNat).map fun x => f x.toUInt32 y.toUInt32).toArray.size =
        width.toNat * height.toNat := by
    simp only [List.size_toArray, List.length_flatMap, hrow, List.map_const', List.length_range,
      List.sum_replicate, smul_eq_mul, Nat.mul_comm]
  refine ⟨⟨width, height, _, hw, hh, hsize⟩, ?_, rfl, rfl, fun x y hx hy => ?_⟩
  · simp only [ofFn, new]
    rw [dif_pos ⟨hw, hh⟩, dif_pos hsize]
  · have hplace : y.toNat < (List.range height.toNat).length := by rwa [List.length_range]
    have hslice := GradientRamps.take_drop_flatMap (fun y _ => hrow y) hplace
    rw [List.getElem?_toArray, ← List.getElem?_drop, ← List.getElem?_take_of_lt hx, hslice,
      List.getElem_range, List.getElem?_map, List.getElem?_range hx, Option.map_some]
    simp only [Nat.toUInt32_eq, UInt32.ofNat_toNat]

/-- A texel of the texture is the one at its column and row, whatever the address mode. -/
theorem fetch_of_lt {t : AlphaTexture} {x y : UInt32} {b : UInt8} (hx : x.toNat < t.width.toNat)
    (hy : y.toNat < t.height.toNat) (hread : t.texels[y.toNat * t.width.toNat + x.toNat]? = some b)
    (mode : AddressMode) :
    t.fetch x.toNat y.toNat mode = coverage b := by
  refine (fetch_inside mode ⟨x.toNat, hx⟩ ⟨y.toNat, hy⟩).trans ?_
  rw [texel, (Array.getElem?_eq_some_iff.mp hread).2]

/-- A texture of at most 2^32 texels with sides of at most 2^22 can be made from any function. At
the centre of each texel, taken without a filter and in any address mode, its value there is found as
a fraction of 255, with no number on the way leaving its type. -/
theorem ofFn_sample_centre (hw : 0 < width.toNat) (hw' : width.toNat ≤ 2 ^ 22) (hh : 0 < height.toNat)
    (hh' : height.toNat ≤ 2 ^ 22) (hsize : width.toNat * height.toNat ≤ 2 ^ 32)
    (f : UInt32 → UInt32 → UInt8) :
    ∃ t, ofFn width height f = .ok t ∧ ∀ x < width, ∀ y < height, ∀ mode : AddressMode,
      t.sample ⟨texelCentre width x, texelCentre height y⟩ ⟨mode, .nearest⟩ = (f x y).toFloat32 / 255.0 ∧
      t.sample? ⟨texelCentre width x, texelCentre height y⟩ ⟨mode, .nearest⟩ =
        some ((f x y).toFloat32 / 255.0) := by
  obtain ⟨t, ht, rfl, rfl, htexels⟩ := exists_ofFn hw hh f
  refine ⟨t, ht, fun x hx y hy mode => ?_⟩
  rw [UInt32.lt_iff_toNat_lt] at hx hy
  have hsample : t.sample ⟨texelCentre t.width x, texelCentre t.height y⟩ ⟨mode, .nearest⟩ =
      coverage (f x y) := by
    simp only [sample, toInt64Clamped_floor_texelCentre hx hw', toInt64Clamped_floor_texelCentre hy hh']
    exact fetch_of_lt hx hy (htexels x y hx hy) mode
  have hreach : t.InReach ⟨texelCentre t.width x, texelCentre t.height y⟩ :=
    ⟨reaches_texelCentre hx hw', reaches_texelCentre hy hh'⟩
  exact ⟨hsample, (sample?_eq hsize hreach _).trans (congrArg some hsample)⟩

/-- The last texel of a texture with sides of three and five texels, beyond which the border shows. -/
theorem ofFn_sample_centre_three_five :
    0 < (3 : UInt32).toNat ∧ (3 : UInt32).toNat ≤ 2 ^ 22 ∧ 0 < (5 : UInt32).toNat ∧
      (5 : UInt32).toNat ≤ 2 ^ 22 ∧ (3 : UInt32).toNat * (5 : UInt32).toNat ≤ 2 ^ 32 ∧
      ∃ t, ofFn 3 5 (fun x y => (5 * x + y).toUInt8) = .ok t ∧
        t.sample ⟨texelCentre 3 2, texelCentre 5 4⟩ ⟨.clampToBorder, .nearest⟩ = 14.0 / 255.0 := by
  have hw : 0 < (3 : UInt32).toNat := by decide
  have hw' : (3 : UInt32).toNat ≤ 2 ^ 22 := by decide
  have hh : 0 < (5 : UInt32).toNat := by decide
  have hh' : (5 : UInt32).toNat ≤ 2 ^ 22 := by decide
  have hsize : (3 : UInt32).toNat * (5 : UInt32).toNat ≤ 2 ^ 32 := by decide
  obtain ⟨t, ht, hcentres⟩ := ofFn_sample_centre hw hw' hh hh' hsize fun x y => (5 * x + y).toUInt8
  exact ⟨hw, hw', hh, hh', hsize, t, ht, (hcentres 2 (by decide) 4 (by decide) .clampToBorder).1⟩

end AlphaTexture

end TileCompositor
