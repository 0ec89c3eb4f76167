import TileCompositor.Proofs.Binary32.Error
import TileCompositor.Proofs.Scalar.Whole
import TileCompositor.Texture.Alpha
/-!
# Sampling in machine integers

A texture is sampled with signed 64-bit coordinates and an index into the data
of 32 bits. `sample?` does what `sample` does and gives up where a coordinate
or an index leaves its type, where a side of no texels is divided by, and where
the data ends before the index. It never does for a texture of at most 2^32
texels and coordinates that stay below 2^62: a coordinate that the address mode
has resolved lies on its side of the texture, and the neighbour of one that it
has not is one above it.

Results:
* `AddressMode.address?_eq`: address modes, for any coordinate.
* `Reaches.exists_denotes_sub_half`, `Reaches.int64?_next`: coordinates and their neighbours.
* `AlphaTexture.texel?_eq`, `AlphaTexture.fetch?_eq`, `AlphaTexture.sample?_eq`:
  every read hits a texel, and it is the right one.
-/
namespace TileCompositor
open Binary32

/-- `i` as a signed 64-bit number, if it is one. -/
def int64? (i : Int) : Option Int := if -2 ^ 63 ≤ i ∧ i < 2 ^ 63 then some i else none

/-- `n` as a 32-bit number, if it is one. -/
def uint32? (n : Nat) : Option UInt32 := if n < 2 ^ 32 then some (.ofNat n) else none

theorem int64?_eq {i : Int} (h : -2 ^ 63 ≤ i ∧ i < 2 ^ 63) : int64? i = some i := if_pos h

theorem exists_uint32? {n : Nat} (h : n < 2 ^ 32) : ∃ u, uint32? n = some u ∧ u.toNat = n :=
  ⟨_, if_pos h, UInt32.toNat_ofNat_of_lt' h⟩

/-! ## Address modes -/

/-- The texel that stands for coordinate `i` along a side of `size` texels, in
64-bit numbers, cut to 32 bits at the end.
mirrors `address`, fragment/texture:109-126 -/
def AddressMode.address? (mode : AddressMode) (size : UInt32) (i : Int) : Option (Option UInt32) := do
  let n : Int := size.toNat
  match mode with
  | .clampToEdge =>
    let last ← int64? (n - 1)
    guard (0 ≤ last)
    return some (.ofInt (max 0 (min i last)))
  | .periodic =>
    guard (n ≠ 0)
    return some (.ofInt (i % n))
  | .reflected =>
    let period ← int64? (2 * n)
    guard (period ≠ 0)
    let m := i % period
    if m < n then return some (.ofInt m)
    else
      let last ← int64? (period - 1)
      let mirrored ← int64? (last - m)
      return some (.ofInt mirrored)
  | .clampToBorder => return if 0 ≤ i ∧ i < n then some (.ofInt i) else none

/-- A place along a side keeps its number when it is cut to 32 bits. -/
theorem ofInt_of_side (size : UInt32) {i : Int} (h0 : 0 ≤ i) (h : i < size.toNat) :
    UInt32.ofInt i = .ofNat i.toNat := by
  have hlt := size.toNat_lt
  rw [UInt32.ofInt, Int.emod_eq_of_lt h0 (by omega)]

theorem toNat_ofNat_of_side {size : UInt32} (k : Fin size.toNat) : (UInt32.ofNat k).toNat = k :=
  UInt32.toNat_ofNat_of_lt' (k.isLt.trans size.toNat_lt)

/-- A side without texels apart, every coordinate is resolved without leaving the 64-bit numbers. -/
theorem AddressMode.address?_eq (mode : AddressMode) {size : UInt32} (h : 0 < size.toNat) (i : Int) :
    mode.address? size i = some ((mode.resolve size.toNat h i).map fun k => .ofNat k) := by
  have hlt := size.toNat_lt
  cases mode with
  | clampToEdge =>
    have hlast := int64?_eq (i := size.toNat - 1) (by omega)
    have hnonneg : 0 ≤ (size.toNat : Int) - 1 := by omega
    have hval : (max 0 (min i (size.toNat - 1))).toNat = min i.toNat (size.toNat - 1) := by omega
    have hcut := ofInt_of_side size (i := max 0 (min i (size.toNat - 1))) (by omega) (by omega)
    simp only [address?, resolve, hlast, guard, if_pos hnonneg, Option.bind_eq_bind, Option.bind_some,
      hcut, hval]
    rfl
  | periodic =>
    have hne : (size.toNat : Int) ≠ 0 := by omega
    have hcut := ofInt_of_side size (Int.emod_nonneg i hne) (Int.emod_lt_of_pos i (by omega))
    simp only [address?, resolve, guard, if_pos hne, Option.bind_eq_bind, hcut]
    rfl
  | reflected =>
    have hperiod := int64?_eq (i := 2 * size.toNat) (by omega)
    have hne : 2 * (size.toNat : Int) ≠ 0 := by omega
    have hm0 := Int.emod_nonneg i hne
    have hm1 := Int.emod_lt_of_pos i (b := 2 * size.toNat) (by omega)
    simp only [address?, resolve, hperiod, guard, if_pos hne, Option.bind_eq_bind, Option.bind_some]
    by_cases hm : i % (2 * size.toNat) < size.toNat
    · have hm' : (i % (2 * size.toNat)).toNat < size.toNat := by omega
      simp only [if_pos hm, dif_pos hm', ofInt_of_side size hm0 hm]
      rfl
    · have hm' : ¬ (i % (2 * size.toNat)).toNat < size.toNat := by omega
      have hlast := int64?_eq (i := 2 * size.toNat - 1) (by omega)
      have hmirrored := int64?_eq (i := 2 * size.toNat - 1 - i % (2 * size.toNat)) (by omega)
      have hcut := ofInt_of_side size (i := 2 * size.toNat - 1 - i % (2 * size.toNat))
        (by omega) (by omega)
      have hval : (2 * (size.toNat : Int) - 1 - i % (2 * size.toNat)).toNat =
          2 * size.toNat - 1 - (i % (2 * size.toNat)).toNat := by omega
      simp only [if_neg hm, dif_neg hm', hlast, hmirrored, hcut, hval, Option.bind_some]
      rfl
  | clampToBorder =>
    simp only [address?, resolve]
    by_cases hi : 0 ≤ i ∧ i < size.toNat
    · simp only [if_pos hi, dif_pos hi, ofInt_of_side size hi.1 hi.2]
      rfl
    · simp only [if_neg hi, dif_neg hi]
      rfl

/-! ## Coordinates -/

/-- `x` is finite, and as many texels as `n` make it a coordinate below 2^62, be the product exact or
as it is computed. -/
def Reaches (x : Float32) (n : UInt32) : Prop :=
  ∃ p, Denotes x p ∧ (|p * n.toNat| < 2 ^ 62 ∨ |nearest (p * nearest n.toNat)| < 2 ^ 62)

/-- A count is rounded by a quarter of it at most. -/
theorem nearest_le_five_quarters (n : ℕ) : nearest n ≤ 5 / 4 * n := by
  rcases n.eq_zero_or_pos with rfl | hpos
  · rw [Nat.cast_zero, nearest_zero, mul_zero]
  · have hone : (1 : ℚ) ≤ n := by exact_mod_cast hpos
    have herr := abs_nearest_sub_le_part (n : ℚ)
    rw [Nat.abs_cast] at herr
    have hup := (abs_le.mp herr).2
    norm_num at hup
    linarith

/-- The coordinate that is computed. -/
theorem Reaches.exists_denotes {x : Float32} {n : UInt32} (h : Reaches x n) :
    ∃ q, Denotes (x * n.toFloat32) q ∧ |q| ≤ 3 * 2 ^ 61 := by
  obtain ⟨p, hp, hlt⟩ := h
  have hle : |nearest (p * nearest n.toNat)| ≤ 3 * 2 ^ 61 := by
    rcases hlt with hexact | hcomputed
    · have hcount : |nearest n.toNat| ≤ 5 / 4 * n.toNat := by
        rw [abs_of_nonneg (nearest_nonneg (Nat.cast_nonneg _))]
        exact nearest_le_five_quarters _
      refine abs_nearest_le ⟨3, 61, by norm_num, by norm_num, by norm_num⟩ ?_
      rw [abs_mul, Nat.abs_cast] at hexact
      calc |p * nearest n.toNat| ≤ |p| * (5 / 4 * n.toNat) := by
            rw [abs_mul]
            exact mul_le_mul_of_nonneg_left hcount (abs_nonneg p)
        _ ≤ 3 * 2 ^ 61 := by linarith
    · linarith
  exact ⟨_, hp.mul (denotes_toFloat32 n) (hle.trans_lt (by norm_num)), hle⟩

/-- The same coordinate between the centres of texels. -/
theorem Reaches.exists_denotes_sub_half {x : Float32} {n : UInt32} (h : Reaches x n) :
    ∃ q, Denotes (x * n.toFloat32 - 0.5) q ∧ |q| ≤ 7 * 2 ^ 60 := by
  obtain ⟨q, hq, hle⟩ := h.exists_denotes
  have hhalf : |q - 1 / 2| ≤ 7 * 2 ^ 60 := by
    have htri := abs_sub q (1 / 2)
    norm_num at htri hle ⊢
    linarith
  have hround : |nearest (q - 1 / 2)| ≤ 7 * 2 ^ 60 :=
    abs_nearest_le ⟨7, 60, by norm_num, by norm_num, by norm_num⟩ hhalf
  exact ⟨_, hq.sub denotes_half (hround.trans_lt (by norm_num)), hround⟩

/-- The texel to the left of a coordinate has a neighbour to the right. -/
theorem Reaches.int64?_next {x : Float32} {n : UInt32} (h : Reaches x n) :
    int64? (Scalar.toInt64Clamped (Scalar.floor (x * n.toFloat32 - 0.5)) + 1) =
      some (Scalar.toInt64Clamped (Scalar.floor (x * n.toFloat32 - 0.5)) + 1) := by
  obtain ⟨q, hq, hle⟩ := h.exists_denotes_sub_half
  obtain ⟨hlo, hhi⟩ := abs_le.mp hle
  have hfloor : |⌊q⌋| ≤ 7 * 2 ^ 60 := by
    refine abs_le.mpr ⟨Int.le_floor.mpr (by exact_mod_cast hlo), ?_⟩
    have := (Int.floor_le q).trans hhi
    exact_mod_cast this
  obtain ⟨hlo', hhi'⟩ := abs_le.mp hfloor
  rw [Scalar.toInt64Clamped_intCast (Scalar.denotes_floor hq) (hfloor.trans_lt (by norm_num))]
  exact int64?_eq (by omega)

/-! ## Reading the data -/

namespace AlphaTexture

/-- The texel at column `x` and row `y`, found with a 32-bit index.
mirrors `texel`, fragment/texture:70-72 -/
def texel? (t : AlphaTexture) (x y : UInt32) : Option Float32 := do
  let start ← uint32? (y.toNat * t.width.toNat)
  let index ← uint32? (start.toNat + x.toNat)
  let byte ← t.texels[index.toNat]?
  return coverage byte

/-- The coverage at signed coordinates.
mirrors `fetch`, fragment/texture:94-100 -/
def fetch? (t : AlphaTexture) (x y : Int) (mode : AddressMode) : Option Float32 := do
  let column ← mode.address? t.width x
  let row ← mode.address? t.height y
  match column, row with
  | some x, some y => t.texel? x y
  | _, _ => return 0.0

/-- The texture at `uv`, with every step checked.
mirrors `sample`, fragment/texture:76-92 -/
def sample? (t : AlphaTexture) (uv : Vec2) (s : Sampler) : Option Float32 := do
  let x := uv.x * t.width.toFloat32
  let y := uv.y * t.height.toFloat32
  match s.filter with
  | .nearest =>
    t.fetch? (Scalar.toInt64Clamped (Scalar.floor x)) (Scalar.toInt64Clamped (Scalar.floor y)) s.address
  | .linear =>
    let x := x - 0.5
    let y := y - 0.5
    let left := Scalar.floor x
    let top := Scalar.floor y
    let i := Scalar.toInt64Clamped left
    let j := Scalar.toInt64Clamped top
    let right ← int64? (i + 1)
    let below ← int64? (j + 1)
    let upper := mix (← t.fetch? i j s.address) (← t.fetch? right j s.address) (x - left)
    let lower := mix (← t.fetch? i below s.address) (← t.fetch? right below s.address) (x - left)
    return mix upper lower (y - top)

/-- The coordinates that `uv` leads to stay below 2^62. -/
structure InReach (t : AlphaTexture) (uv : Vec2) : Prop where
  x : Reaches uv.x t.width
  y : Reaches uv.y t.height

variable {t : AlphaTexture} {uv : Vec2}

/-- In a texture of at most 2^32 texels no index of a texel leaves the 32-bit numbers. -/
theorem texel?_eq (hsize : t.width.toNat * t.height.toNat ≤ 2 ^ 32) (x : Fin t.width.toNat)
    (y : Fin t.height.toNat) : t.texel? (.ofNat x) (.ofNat y) = some (t.texel x y) := by
  have hindex := t.index_lt x y
  have hlt : y.val * t.width.toNat + x.val < 2 ^ 32 := hindex.trans_le (t.size_eq ▸ hsize)
  obtain ⟨start, hstart, hrow⟩ := exists_uint32? (n := y.val * t.width.toNat) (by omega)
  obtain ⟨index, hplace, hval⟩ := exists_uint32? hlt
  have hread : t.texels[index.toNat]? = some t.texels[y.val * t.width.toNat + x.val] := by
    rw [hval, Array.getElem?_eq_getElem hindex]
  simp only [texel?, toNat_ofNat_of_side, hstart, hrow, hplace, hread, Option.bind_eq_bind,
    Option.bind_some]
  rfl

theorem fetch?_eq (hsize : t.width.toNat * t.height.toNat ≤ 2 ^ 32) (x y : Int) (mode : AddressMode) :
    t.fetch? x y mode = some (t.fetch x y mode) := by
  simp only [fetch?, fetch, mode.address?_eq t.width_pos, mode.address?_eq t.height_pos,
    Option.bind_eq_bind, Option.bind_some]
  cases mode.resolve t.width.toNat t.width_pos x with
  | none => rfl
  | some column =>
    cases mode.resolve t.height.toNat t.height_pos y with
    | none => rfl
    | some row => exact texel?_eq hsize column row

/-- Every step of sampling can be made, and what comes of it is the sample. -/
theorem sample?_eq (hsize : t.width.toNat * t.height.toNat ≤ 2 ^ 32) (huv : t.InReach uv) (s : Sampler) :
    t.sample? uv s = some (t.sample uv s) := by
  simp only [sample?, sample]
  cases s.filter with
  | nearest => exact fetch?_eq hsize _ _ _
  | linear =>
    simp only [huv.x.int64?_next, huv.y.int64?_next, fetch?_eq hsize, Option.bind_eq_bind, Option.bind_some]
    rfl

end AlphaTexture

end TileCompositor
