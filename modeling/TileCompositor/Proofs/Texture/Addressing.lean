import TileCompositor.Proofs.Texture.Checked
/-!
# Textures beyond their edges

Along one side, a periodic texture repeats after the side and a reflected one after twice the side,
in which every place of the side occurs once in each direction. Clamping takes the nearest place, and
beyond a border there is none. Inside, all four modes agree. A texture is addressed side by side, so
each of this holds of the plane as it holds of a side, and a border shows as soon as it shows along
one of the two.

Results:
* `AddressMode.resolve_periodic_add_mul`, `AddressMode.resolve_reflected_add_mul`,
  `AddressMode.resolve_reflected_mirror`: the symmetries of a side.
* `AddressMode.exists_nearest`, `AddressMode.resolve_clampToBorder_eq_none_iff`: its ends.
* `AddressMode.resolve_of_lt`: no address mode changes a coordinate inside.
* `AlphaTexture.fetch_beyond_edges`: the texture in the plane.
-/
namespace TileCompositor

namespace AddressMode
variable {n : Nat} (hn : 0 < n) (i : Int)

/-! ## Sides -/

theorem resolve_periodic_add_mul (j : Int) :
    periodic.resolve n hn (i + j * n) = periodic.resolve n hn i := by
  simp only [resolve, Int.add_mul_emod_self_right]

theorem resolve_reflected_add_mul (j : Int) :
    reflected.resolve n hn (i + j * (2 * n)) = reflected.resolve n hn i := by
  simp only [resolve, Int.add_mul_emod_self_right]

/-- Counted backwards from the place before zero, the places of a period come in reverse order. -/
theorem neg_one_sub_emod {m : Int} (hm : 0 < m) : (-1 - i) % m = m - 1 - i % m := by
  have h0 := Int.emod_nonneg i hm.ne'
  have h1 := Int.emod_lt_of_pos i hm
  have hsplit := Int.emod_add_mul_ediv i m
  have hperiod : -1 - i = m - 1 - i % m + m * (-(i / m) - 1) := by
    rw [Int.mul_sub, Int.mul_neg, Int.mul_one]
    omega
  rw [hperiod, Int.add_mul_emod_self_left, Int.emod_eq_of_lt (by omega) (by omega)]

/-- The two halves of a period are each other's mirror images. -/
theorem resolve_reflected_mirror : reflected.resolve n hn (-1 - i) = reflected.resolve n hn i := by
  have h0 := Int.emod_nonneg i (b := 2 * n) (by omega)
  have h1 := Int.emod_lt_of_pos i (b := 2 * n) (by omega)
  have hplace : ((-1 - i) % (2 * n)).toNat = 2 * n - 1 - (i % (2 * n)).toNat := by
    rw [neg_one_sub_emod i (by omega)]
    omega
  simp only [resolve, hplace]
  by_cases hm : (i % (2 * n)).toNat < n
  · have hm' : ¬ 2 * n - 1 - (i % (2 * n)).toNat < n := by omega
    have hback : 2 * n - 1 - (2 * n - 1 - (i % (2 * n)).toNat) = (i % (2 * n)).toNat := by omega
    simp only [dif_pos hm, dif_neg hm', hback]
  · have hm' : 2 * n - 1 - (i % (2 * n)).toNat < n := by omega
    simp only [dif_neg hm, dif_pos hm']

/-- No place of the side is nearer to the coordinate. -/
def IsNearest (i : Int) (k : Fin n) : Prop := ∀ l : Fin n, (i - k).natAbs ≤ (i - l).natAbs

/-- Clamping finds the nearest place. -/
theorem exists_nearest : ∃ k : Fin n, IsNearest i k ∧ clampToEdge.resolve n hn i = some k := by
  refine ⟨⟨min i.toNat (n - 1), by omega⟩, fun l => ?_, rfl⟩
  have hl := l.isLt
  show (i - (min i.toNat (n - 1) : Nat)).natAbs ≤ _
  omega

theorem resolve_clampToBorder_eq_none_iff :
    clampToBorder.resolve n hn i = none ↔ i < 0 ∨ (n : Int) ≤ i := by
  by_cases hi : 0 ≤ i ∧ i < n
  · simp only [resolve, dif_pos hi]
    exact iff_of_false (Option.some_ne_none _) (by omega)
  · simp only [resolve, dif_neg hi]
    exact iff_of_true trivial (by omega)

theorem resolve_of_lt (mode : AddressMode) {i : Nat} (hi : i < n) :
    mode.resolve n hn i = some ⟨i, hi⟩ := by
  cases mode with
  | clampToEdge =>
    have hval : min (i : Int).toNat (n - 1) = i := by omega
    simp only [resolve, hval]
  | periodic =>
    have hval : ((i : Int) % n).toNat = i := by rw [Int.emod_eq_of_lt (by omega) (by omega), Int.toNat_natCast]
    simp only [resolve, hval]
  | reflected =>
    have hval : ((i : Int) % (2 * n)).toNat = i := by
      rw [Int.emod_eq_of_lt (by omega) (by omega), Int.toNat_natCast]
    simp only [resolve, hval, dif_pos hi]
  | clampToBorder =>
    have hinside : 0 ≤ (i : Int) ∧ (i : Int) < n := by omega
    simp only [resolve, dif_pos hinside, Int.toNat_natCast]

end AddressMode

/-! ## The plane -/

namespace AlphaTexture
variable {t : AlphaTexture} {x x' y y' : Int} {mode mode' : AddressMode}

/-- What is fetched depends on the places along the sides alone. -/
theorem fetch_congr
    (hx : mode'.resolve t.width.toNat t.width_pos x' = mode.resolve t.width.toNat t.width_pos x)
    (hy : mode'.resolve t.height.toNat t.height_pos y' = mode.resolve t.height.toNat t.height_pos y) :
    t.fetch x' y' mode' = t.fetch x y mode := by
  rw [fetch, hx, hy]
  rfl

theorem fetch_of_some {column : Fin t.width.toNat} {row : Fin t.height.toNat}
    (hx : mode.resolve t.width.toNat t.width_pos x = some column)
    (hy : mode.resolve t.height.toNat t.height_pos y = some row) :
    t.fetch x y mode = t.texel column row := by
  rw [fetch, hx, hy]

/-- Where one side has no place, nothing is fetched. -/
theorem fetch_of_none
    (h : mode.resolve t.width.toNat t.width_pos x = none ∨ mode.resolve t.height.toNat t.height_pos y = none) :
    t.fetch x y mode = 0.0 := by
  unfold fetch
  rcases h with h | h
  · rw [h]
  · rw [h]
    cases mode.resolve t.width.toNat t.width_pos x <;> rfl

theorem fetch_inside (mode : AddressMode) (column : Fin t.width.toNat) (row : Fin t.height.toNat) :
    t.fetch column row mode = t.texel column row :=
  fetch_of_some (mode.resolve_of_lt t.width_pos column.isLt) (mode.resolve_of_lt t.height_pos row.isLt)

/-- In a texture of at most 2^32 texels all coordinates can be fetched without a number leaving its
type. Periodic textures repeat after a side. Reflected ones repeat after two and do not change when a
coordinate is reflected at the edge. Clamping shows the texel that is nearest along both sides, and a
border shows nothing wherever one of the coordinates is outside. Inside there are the texels. -/
theorem fetch_beyond_edges (hsize : t.width.toNat * t.height.toNat ≤ 2 ^ 32) (x y : Int) :
    (∀ mode, t.fetch? x y mode = some (t.fetch x y mode)) ∧
    (∀ j k : Int, t.fetch (x + j * t.width.toNat) (y + k * t.height.toNat) .periodic =
      t.fetch x y .periodic) ∧
    (∀ j k : Int, t.fetch (x + j * (2 * t.width.toNat)) (y + k * (2 * t.height.toNat)) .reflected =
      t.fetch x y .reflected) ∧
    t.fetch (-1 - x) y .reflected = t.fetch x y .reflected ∧
    t.fetch x (-1 - y) .reflected = t.fetch x y .reflected ∧
    (∃ (column : Fin t.width.toNat) (row : Fin t.height.toNat),
      AddressMode.IsNearest x column ∧ AddressMode.IsNearest y row ∧
        t.fetch x y .clampToEdge = t.fetch column row .clampToEdge) ∧
    ((x < 0 ∨ (t.width.toNat : Int) ≤ x) ∨ (y < 0 ∨ (t.height.toNat : Int) ≤ y) →
      t.fetch x y .clampToBorder = 0.0) ∧
    ∀ (column : Fin t.width.toNat) (row : Fin t.height.toNat), x = column → y = row →
      ∀ mode, t.fetch x y mode = t.texel column row := by
  refine ⟨fetch?_eq hsize x y, fun j k => ?_, fun j k => ?_, ?_, ?_, ?_, fun houtside => ?_, ?_⟩
  · exact fetch_congr (AddressMode.resolve_periodic_add_mul _ x j) (AddressMode.resolve_periodic_add_mul _ y k)
  · exact fetch_congr (AddressMode.resolve_reflected_add_mul _ x j) (AddressMode.resolve_reflected_add_mul _ y k)
  · exact fetch_congr (AddressMode.resolve_reflected_mirror _ x) rfl
  · exact fetch_congr rfl (AddressMode.resolve_reflected_mirror _ y)
  · obtain ⟨column, hcolumn, hx⟩ := AddressMode.exists_nearest t.width_pos x
    obtain ⟨row, hrow, hy⟩ := AddressMode.exists_nearest t.height_pos y
    exact ⟨column, row, hcolumn, hrow, by rw [fetch_of_some hx hy, fetch_inside]⟩
  · rw [← AddressMode.resolve_clampToBorder_eq_none_iff t.width_pos,
      ← AddressMode.resolve_clampToBorder_eq_none_iff t.height_pos] at houtside
    exact fetch_of_none houtside
  · rintro column row rfl rfl mode
    exact fetch_inside mode column row

/-- A texture of two rows of three texels. -/
def twoRows : AlphaTexture := ⟨3, 2, #[10, 20, 30, 40, 50, 60], by decide, Nat.two_pos, rfl⟩

/-- Reflected at both edges it shows its last texel, and beyond a border it shows nothing. -/
theorem twoRows_reflected :
    twoRows.width.toNat * twoRows.height.toNat ≤ 2 ^ 32 ∧
      twoRows.fetch (-1 - 2) (-1 - 1) .reflected = coverage 60 ∧
      twoRows.fetch (-3) 1 .clampToBorder = 0.0 := by
  have hsize : twoRows.width.toNat * twoRows.height.toNat ≤ 2 ^ 32 := by decide
  obtain ⟨-, -, -, hcolumn, -⟩ := fetch_beyond_edges hsize 2 (-1 - 1)
  obtain ⟨-, -, -, -, hrow, -, -, hinside⟩ := fetch_beyond_edges hsize 2 1
  obtain ⟨-, -, -, -, -, -, hborder, -⟩ := fetch_beyond_edges hsize (-3) 1
  have hlast : twoRows.fetch 2 1 .reflected = twoRows.texel ⟨2, by decide⟩ ⟨1, by decide⟩ :=
    hinside ⟨2, by decide⟩ ⟨1, by decide⟩ rfl rfl .reflected
  exact ⟨hsize, hcolumn.trans (hrow.trans hlast), hborder (.inl (.inl (by decide)))⟩

end AlphaTexture

end TileCompositor
