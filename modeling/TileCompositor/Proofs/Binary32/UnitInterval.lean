import TileCompositor.Proofs.Binary32.Value
/-!
# Values between zero and one

Channels and weights lie between zero and one, and rounding does not lead out
of this range. A weight and the rounded rest of one add up to one again, with
both roundings in place.

Results:
* `inUnit_iff`: the values that compare as between zero and one.
* `DenotesUnit.mul`, `DenotesUnit.sub`, `DenotesUnit.add`, `DenotesUnit.div`:
  operations that stay in the range.
* `nearest_add_nearest_sub`: a weight and the rest of one.
* `DenotesUnit.mul_div`: multiplying by a weight and dividing by it again.
* `Representable.abs_le_mul_unit`: the magnitude of a value in its spacings.
-/
namespace TileCompositor

/-- `x` lies between zero and one. -/
def Scalar.InUnit (x : Float32) : Prop := 0.0 ≤ x ∧ x ≤ 1.0

/-- The least value with all 24 bits, 2^-126. -/
def Scalar.leastNormal : Float32 := Float32.ofBits 0x00800000

instance (x : Float32) : Decidable (Scalar.InUnit x) := inferInstanceAs (Decidable (_ ∧ _))

namespace Binary32

/-- `x` is finite and stands for `q`, a number from zero to one. -/
structure DenotesUnit (x : Float32) (q : ℚ) : Prop where
  denotes : Denotes x q
  nonneg : 0 ≤ q
  le_one : q ≤ 1

/-! ## The range -/

/-- NaN and the infinities are not in the range. -/
theorem inUnit_iff {x : Float32} : Scalar.InUnit x ↔ ∃ q, DenotesUnit x q := by
  constructor
  · intro ⟨hlo, hhi⟩
    obtain ⟨q, hq, h0, h1⟩ := exists_of_le_of_le denotes_zero denotes_one hlo hhi
    exact ⟨q, hq, h0, h1⟩
  · intro ⟨q, hq, h0, h1⟩
    exact ⟨(denotes_zero.le_iff hq).mpr h0, (hq.le_iff denotes_one).mpr h1⟩

theorem representable_one : Representable 1 := denotes_one.representable

theorem denotesUnit_one : DenotesUnit 1.0 1 := ⟨denotes_one, zero_le_one, le_rfl⟩

theorem denotes_leastNormal : Denotes Scalar.leastNormal (1 / 2 ^ 126) :=
  denotes_of_view_eq (2 ^ 23) (-149) ⟨by decide, rfl⟩ (by norm_num)

section Operations
variable {x y : Float32} {p q : ℚ}

theorem abs_nearest_lt_of_unit (h0 : 0 ≤ q) (h1 : nearest q ≤ 1) : |nearest q| < 2 ^ 128 := by
  rw [abs_of_nonneg (nearest_nonneg h0)]
  linarith

theorem DenotesUnit.mul (hx : DenotesUnit x p) (hy : DenotesUnit y q) :
    DenotesUnit (x * y) (nearest (p * q)) := by
  have h0 : 0 ≤ p * q := mul_nonneg hx.nonneg hy.nonneg
  have h1 : nearest (p * q) ≤ 1 :=
    nearest_le representable_one (mul_le_one₀ hx.le_one hy.nonneg hy.le_one)
  exact ⟨hx.denotes.mul hy.denotes (abs_nearest_lt_of_unit h0 h1), nearest_nonneg h0, h1⟩

theorem DenotesUnit.sub (hx : DenotesUnit x p) (hy : DenotesUnit y q) (h : q ≤ p) :
    DenotesUnit (x - y) (nearest (p - q)) := by
  have h0 : 0 ≤ p - q := sub_nonneg.mpr h
  have h1 : nearest (p - q) ≤ 1 := nearest_le representable_one (by linarith [hx.le_one, hy.nonneg])
  exact ⟨hx.denotes.sub hy.denotes (abs_nearest_lt_of_unit h0 h1), nearest_nonneg h0, h1⟩

/-- What is left of one. -/
theorem DenotesUnit.one_sub (hx : DenotesUnit x p) : DenotesUnit (1.0 - x) (nearest (1 - p)) :=
  denotesUnit_one.sub hx hx.le_one

theorem DenotesUnit.add (hx : DenotesUnit x p) (hy : DenotesUnit y q) (h : nearest (p + q) ≤ 1) :
    DenotesUnit (x + y) (nearest (p + q)) := by
  have h0 : 0 ≤ p + q := add_nonneg hx.nonneg hy.nonneg
  exact ⟨hx.denotes.add hy.denotes (abs_nearest_lt_of_unit h0 h), nearest_nonneg h0, h⟩

/-- The part that a smaller number is of a larger one. -/
theorem DenotesUnit.div (hx : DenotesUnit x p) (hy : DenotesUnit y q) (hpos : 0 < q) (h : p ≤ q) :
    DenotesUnit (x / y) (nearest (p / q)) := by
  have h0 : 0 ≤ p / q := div_nonneg hx.nonneg hpos.le
  have h1 : nearest (p / q) ≤ 1 := nearest_le representable_one ((div_le_one hpos).mpr h)
  exact ⟨hx.denotes.div hy.denotes hpos.ne' (abs_nearest_lt_of_unit h0 h1), nearest_nonneg h0, h1⟩

/-- A part of a value is not above it. -/
theorem DenotesUnit.nearest_mul_le (hx : DenotesUnit x p) (hy : DenotesUnit y q) :
    nearest (p * q) ≤ q :=
  nearest_le hy.denotes.representable (mul_le_of_le_one_left hy.nonneg hx.le_one)

/-- A value that is multiplied by a weight and divided by it again. -/
theorem DenotesUnit.mul_div (hx : DenotesUnit x p) (hy : DenotesUnit y q) (hpos : 0 < q) :
    DenotesUnit (x * y / y) (nearest (nearest (p * q) / q)) :=
  (hx.mul hy).div hy hpos (hx.nearest_mul_le hy)

end Operations

/-! ## A weight and the rest of one -/

theorem nearest_eq_of_scaled {q n : ℚ} {e : ℤ} (he : unitExponent q = e) (m : ℤ)
    (h : nearestInt (q / 2 ^ e) = m) (hn : m * 2 ^ e = n) : nearest q = n := by
  rw [nearest, unit, he, h, hn]

/-- Above one the spacing is 2^-23, and 2^-25 is a quarter of it. Below one
the spacing is 2^-24, and 2^-25 is a tie, which goes to one. -/
theorem nearest_eq_one {q : ℚ} (h : |q - 1| ≤ 1 / 2 ^ 25) : nearest q = 1 := by
  obtain ⟨hlo, hhi⟩ := abs_le.mp h
  have hup : nearest (1 + 1 / 2 ^ 25) = 1 := by
    apply nearest_eq_of_scaled (e := -23) (unitExponent_eq ?_ ?_ ?_) (2 ^ 23) ?_ <;> norm_num
    have := nearestInt_intCast_add (2 ^ 23) (d := 1 / 4) (by norm_num) (by norm_num)
    norm_num at this
    exact this
  have hdown : nearest (1 - 1 / 2 ^ 25) = 1 := by
    apply nearest_eq_of_scaled (e := -24) (unitExponent_eq ?_ ?_ ?_) (2 ^ 24) ?_ <;> norm_num
    have := nearestInt_intCast_sub_half (k := 2 ^ 24) (by norm_num)
    norm_num at this
    exact this
  apply le_antisymm
  · rw [← hup]
    exact nearest_mono (by linarith)
  · rw [← hdown]
    exact nearest_mono (by linarith)

/-- A weight and the rest of one, rounded, add up to one, rounded again. -/
theorem nearest_add_nearest_sub {a : ℚ} (h0 : 0 ≤ a) (h1 : a ≤ 1) :
    nearest (a + nearest (1 - a)) = 1 := by
  rcases h0.eq_or_lt with rfl | hpos
  · rw [sub_zero, zero_add, nearest_of_representable representable_one,
      nearest_of_representable representable_one]
  rcases h1.eq_or_lt with rfl | hlt
  · rw [sub_self, nearest_zero, add_zero, nearest_of_representable representable_one]
  · -- the rest is below one, where half a spacing is 2^-25
    apply nearest_eq_one
    have hu : unit (1 - a) ≤ 2 ^ (-24 : ℤ) := by
      refine zpow_le_zpow_right₀ (by norm_num) (unitExponent_le (by linarith) (by norm_num) ?_)
      rw [abs_of_pos (by linarith)]
      norm_num
      linarith
    have herr := abs_nearest_sub_le (1 - a)
    have e : a + nearest (1 - a) - 1 = nearest (1 - a) - (1 - a) := by ring
    rw [e]
    norm_num at hu ⊢
    linarith

/-! ## Values in their spacings -/

/-- The numerator of a value, counted in its spacings. -/
theorem Representable.exists_lt_mul_unit {q : ℚ} (h : Representable q) :
    ∃ n : ℤ, q = n * unit q ∧ |n| ≤ 2 ^ 24 - 1 := by
  obtain ⟨n, hn⟩ := h.exists_eq_mul_unit
  have hlt : |n| < 2 ^ 24 := by
    have habs := abs_lt_unit q
    rw [hn, abs_mul, ← hn, abs_of_pos (unit_pos q)] at habs
    exact_mod_cast lt_of_mul_lt_mul_right habs (unit_pos q).le
  exact ⟨n, hn, Int.le_sub_one_of_lt hlt⟩

theorem Representable.abs_le_mul_unit {q : ℚ} (h : Representable q) :
    |q| ≤ (2 ^ 24 - 1) * unit q := by
  obtain ⟨n, hn, hle⟩ := h.exists_lt_mul_unit
  calc |q| = |(n : ℚ)| * unit q := by
        conv_lhs => rw [hn, abs_mul, abs_of_pos (unit_pos q)]
    _ ≤ (2 ^ 24 - 1) * unit q :=
        mul_le_mul_of_nonneg_right (by exact_mod_cast hle) (unit_pos q).le

end Binary32

end TileCompositor
