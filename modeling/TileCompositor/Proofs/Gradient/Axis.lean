import TileCompositor.Gradient.Basic
import TileCompositor.Proofs.Binary32.Error
import TileCompositor.Proofs.Binary32.Extended
import TileCompositor.Proofs.Binary32.UnitInterval
/-!
# The axis of a gradient

The offset of a point is its inner product with the axis over the squared length
of the axis. That length is computed in floating point: the squares of a finite
axis may be too large or too small for a value, and a small square has few
digits.

Results:
* `abs_roundedSquare_sub_le`: the error of a squared length.
* `near_mul_div`: the part of one component in the inner product.
* `isFinite_divided`, `divided_ne_zero`, `near_dot_divided`: a vector over its squared length.
* `LinearGradient.scaledDirection_usable`: the axes with a direction, and the offset of their finish.
-/
namespace TileCompositor
open Binary32

/-! ## Squared lengths -/

section Square
variable {p q l : ℚ}

/-- The squared length of `(p, q)` as it is computed. -/
def roundedSquare (p q : ℚ) : ℚ := nearest (nearest (p * p) + nearest (q * q))

theorem roundedSquare_le (p q : ℚ) : roundedSquare p q ≤ 4 * (p * p + q * q) := by
  have hp := nearest_le_two_mul (mul_self_nonneg p)
  have hq := nearest_le_two_mul (mul_self_nonneg q)
  have hp0 := nearest_nonneg (mul_self_nonneg p)
  have hq0 := nearest_nonneg (mul_self_nonneg q)
  have hsum := nearest_le_two_mul (add_nonneg hp0 hq0)
  unfold roundedSquare
  linarith

/-- Three roundings, each by one part in 2^24 or by half the least spacing. -/
theorem abs_roundedSquare_sub_le (p q : ℚ) :
    |p * p + q * q - roundedSquare p q| ≤ 3 / 2 ^ 24 * roundedSquare p q + 1 / 2 ^ 148 := by
  have hp0 := mul_self_nonneg p
  have hq0 := mul_self_nonneg q
  have hsum0 := add_nonneg (nearest_nonneg hp0) (nearest_nonneg hq0)
  obtain ⟨hp1, hp2⟩ := abs_le.mp (abs_nearest_sub_le_part (p * p))
  obtain ⟨hq1, hq2⟩ := abs_le.mp (abs_nearest_sub_le_part (q * q))
  obtain ⟨hs1, hs2⟩ := abs_le.mp (abs_nearest_sub_le_part (nearest (p * p) + nearest (q * q)))
  rw [abs_of_nonneg hp0] at hp1 hp2
  rw [abs_of_nonneg hq0] at hq1 hq2
  rw [abs_of_nonneg hsum0] at hs1 hs2
  unfold roundedSquare
  rw [abs_le]
  constructor <;> linarith

/-- A squared length that does not vanish is at least a quarter of its parts. -/
theorem add_mul_self_le (hpos : 0 < roundedSquare p q) : p * p + q * q ≤ 4 * roundedSquare p q := by
  have hleast : 1 / 2 ^ 149 ≤ roundedSquare p q := (nearest_representable _).least_le hpos
  linarith [(abs_le.mp (abs_roundedSquare_sub_le p q)).2]

/-- Over the computed squared length the exact one is one, up to its error. -/
theorem abs_sum_div_sub_one_le (hpos : 0 < roundedSquare p q) :
    |(p * p + q * q) / roundedSquare p q - 1| ≤ 3 / 2 ^ 24 + 1 / (2 ^ 148 * roundedSquare p q) := by
  rw [div_sub_one hpos.ne', abs_div, abs_of_pos hpos, div_le_iff₀ hpos, add_mul, ← div_div,
    div_mul_cancel₀ _ hpos.ne']
  exact abs_roundedSquare_sub_le p q

end Square

/-! ## Inner products -/

section Product
variable {x y : Float32} {p l : ℚ}

/-- A component is not too large for the squared length. -/
theorem abs_le_of_mul_self_le (hl : |l| < 2 ^ 128) (h : p * p ≤ 4 * l) : |p| ≤ 2 ^ 65 := by
  refine abs_le_of_sq_le_sq ?_ (by norm_num)
  have := (abs_lt.mp hl).2
  linarith

/-- Nor is it by the squared length. -/
theorem abs_div_le_of_mul_self_le (hl : 1 / 2 ^ 149 ≤ l) (h : p * p ≤ 4 * l) : |p / l| ≤ 2 ^ 76 := by
  have hpos : 0 < l := lt_of_lt_of_le (by norm_num) hl
  refine abs_le_of_sq_le_sq ?_ (by norm_num)
  rw [div_pow, div_le_iff₀ (by positivity)]
  nlinarith

/-- The quotient of a component by the squared length does not overflow, and its product with the
component is as it should be up to some roundings. -/
theorem near_mul_div (hx : Denotes x p) (hy : Denotes y l) (hpos : 0 < l) (h : p * p ≤ 4 * l) :
    Denotes (x / y) (nearest (p / l)) ∧ Near (x * (x / y)) (p * p / l) (9 / 2 ^ 24) := by
  have hquot := abs_div_le_of_mul_self_le (hy.representable.least_le hpos) h
  have hcomp := abs_le_of_mul_self_le hy.abs_lt h
  have hdiv : Denotes (x / y) (nearest (p / l)) := by
    refine hx.div hy hpos.ne' (abs_nearest_lt_of_lt (k := 77) (by norm_num) (by norm_num) ?_)
    exact hquot.trans_lt (by norm_num)
  refine ⟨hdiv, ?_⟩
  have hw0 : 0 ≤ p * p / l := div_nonneg (mul_self_nonneg p) hpos.le
  have hw4 : p * p / l ≤ 4 := (div_le_iff₀ hpos).mpr h
  have herr : |p * nearest (p / l) - p * p / l| ≤ 5 / 2 ^ 24 := by
    have hround := abs_nearest_sub_le_part (p / l)
    have hparts : |p| * |p / l| = p * p / l := by
      rw [← abs_mul, ← mul_div_assoc, abs_of_nonneg hw0]
    calc |p * nearest (p / l) - p * p / l| = |p| * |nearest (p / l) - p / l| := by
          rw [← abs_mul, mul_sub, mul_div_assoc]
      _ ≤ |p| * (|p / l| / 2 ^ 24 + 1 / 2 ^ 150) := mul_le_mul_of_nonneg_left hround (abs_nonneg p)
      _ = p * p / l / 2 ^ 24 + |p| / 2 ^ 150 := by rw [← hparts]; ring
      _ ≤ 5 / 2 ^ 24 := by linarith
  have hnear := near_of_nearest (k := 3) (hx.mul hdiv) (by norm_num) (by norm_num) herr
    (by rw [abs_of_nonneg hw0]; norm_num; linarith)
  exact hnear.mono (by norm_num)

end Product

/-! ## Vectors over their squared length -/

/-- The components of a vector whose squared length is finite. -/
theorem exists_components {v : Vec2} {l : ℚ} (hl : Denotes v.lengthSquared l) :
    ∃ p q, Denotes v.x p ∧ Denotes v.y q ∧ l = roundedSquare p q := by
  obtain ⟨a, b, ha, hb, hsum⟩ := operands_of_add hl.isFinite
  obtain ⟨p, p', hp, hp', hpp⟩ := operands_of_mul ha.isFinite
  obtain ⟨q, q', hq, hq', hqq⟩ := operands_of_mul hb.isFinite
  obtain rfl := hp.unique hp'
  obtain rfl := hq.unique hq'
  exact ⟨p, q, hp, hq, by rw [hl.unique hsum, ha.unique hpp, hb.unique hqq]; rfl⟩

section Divided
variable {v : Vec2} {l : ℚ}

/-- What becomes of the components over the squared length, and of their products with it. -/
theorem exists_divided (hl : Denotes v.lengthSquared l) (hpos : 0 < l) :
    ∃ p q, l = roundedSquare p q ∧
      (Denotes (v.x / v.lengthSquared) (nearest (p / l)) ∧
        Denotes (v.y / v.lengthSquared) (nearest (q / l))) ∧
      Near (v.x * (v.x / v.lengthSquared)) (p * p / l) (9 / 2 ^ 24) ∧
      Near (v.y * (v.y / v.lengthSquared)) (q * q / l) (9 / 2 ^ 24) := by
  obtain ⟨p, q, hp, hq, rfl⟩ := exists_components hl
  have hsum := add_mul_self_le hpos
  obtain ⟨hx, hnearx⟩ := near_mul_div hp hl hpos (by linarith [mul_self_nonneg q])
  obtain ⟨hy, hneary⟩ := near_mul_div hq hl hpos (by linarith [mul_self_nonneg p])
  exact ⟨p, q, rfl, ⟨hx, hy⟩, hnearx, hneary⟩

theorem isFinite_divided (hl : Denotes v.lengthSquared l) (hpos : 0 < l) :
    (v.divide v.lengthSquared).isFinite = true := by
  obtain ⟨p, q, -, ⟨hx, hy⟩, -⟩ := exists_divided hl hpos
  exact Bool.and_eq_true _ _ ▸ ⟨hx.isFinite, hy.isFinite⟩

/-- A component that the squared length divides to zero is short for it. -/
theorem mul_self_le_of_nearest_div {p l : ℚ} (hl : |l| < 2 ^ 128) (hpos : 0 < l)
    (h : nearest (p / l) = 0) : p * p ≤ 1 / 16 * l := by
  have hround := abs_nearest_sub_le_part (p / l)
  rw [h, zero_sub, abs_neg] at hround
  have hle : |p / l| ≤ 1 / 2 ^ 149 := by linarith
  rw [abs_div, abs_of_pos hpos, div_le_iff₀ hpos] at hle
  have hlt := (abs_lt.mp hl).2
  rw [← abs_mul_abs_self p]
  exact mul_le_mul (by linarith) (by linarith) (abs_nonneg p) (by norm_num)

/-- The components cannot both be. -/
theorem divided_ne_zero (hl : Denotes v.lengthSquared l) (hpos : 0 < l) :
    (v.divide v.lengthSquared == Vec2.zero) = false := by
  obtain ⟨p, q, rfl, ⟨hx, hy⟩, -⟩ := exists_divided hl hpos
  rw [Bool.eq_false_iff]
  intro hzero
  obtain ⟨hx0, hy0⟩ := Vec2.beq_iff.mp hzero
  have hp0 := mul_self_le_of_nearest_div hl.abs_lt hpos (hx.unique (denotes_zero.of_beq hx0))
  have hq0 := mul_self_le_of_nearest_div hl.abs_lt hpos (hy.unique (denotes_zero.of_beq hy0))
  have hle := roundedSquare_le p q
  linarith

/-- The inner product of a vector with itself over its squared length is one up to some roundings, and
up to the digits that a small squared length lacks. -/
theorem near_dot_divided (hl : Denotes v.lengthSquared l) (hpos : 0 < l) :
    Near (v.dot (v.divide v.lengthSquared)) 1 (1 / 2 ^ 19 + 1 / (2 ^ 148 * l)) := by
  obtain ⟨p, q, rfl, -, hx, hy⟩ := exists_divided hl hpos
  have hone := abs_sum_div_sub_one_le hpos
  have hw0 := div_nonneg (add_nonneg (mul_self_nonneg p) (mul_self_nonneg q)) hpos.le
  have hw4 := (div_le_iff₀ hpos).mpr (add_mul_self_le hpos)
  obtain ⟨d, hd, herr⟩ := hx.add hy (k := 3) (by norm_num) (by norm_num) (by
    rw [← add_div, abs_of_nonneg hw0]
    norm_num
    linarith)
  rw [← add_div] at herr
  refine ⟨d, hd, ?_⟩
  calc |d - 1| ≤ |d - (p * p + q * q) / roundedSquare p q| + |(p * p + q * q) / roundedSquare p q - 1| :=
        abs_sub_le _ _ _
    _ ≤ 22 / 2 ^ 24 + (3 / 2 ^ 24 + 1 / (2 ^ 148 * roundedSquare p q)) :=
        add_le_add (herr.trans (by norm_num)) hone
    _ ≤ 1 / 2 ^ 19 + 1 / (2 ^ 148 * roundedSquare p q) := by linarith

end Divided

/-! ## Gradients -/

namespace LinearGradient

/-- The offset of the finish, relative to the start. -/
def finishOffset (g : LinearGradient) : Float32 := (g.finish - g.start).dot g.scaledDirection

variable {g : LinearGradient}

/-- The axis of a valid gradient does not vanish, however near its ends are. -/
theorem axis_ne_zero (hg : g.isValid = true) : (g.finish - g.start == Vec2.zero) = false := by
  simp only [isValid, Bool.and_eq_true, bne, Bool.not_eq_true', Bool.eq_false_iff] at hg ⊢
  obtain ⟨-, hne⟩ := hg
  refine mt (fun hzero => ?_) hne
  have hcomponent {x y : Float32} (h : (x - y == 0.0) = true) : (x == y) = true := by
    have hdiff := denotes_zero.of_beq h
    obtain ⟨p, q, hp, hq, hsub⟩ := operands_of_sub hdiff.isFinite
    exact (hp.beq_iff hq).mpr ((nearest_sub_eq_zero hq.representable hp.representable).mp (hsub.unique hdiff))
  obtain ⟨hx, hy⟩ := Vec2.beq_iff.mp hzero
  exact Vec2.beq_iff.mpr ⟨hcomponent hx, hcomponent hy⟩

theorem isFinite_axis (h : g.scaledDirection.isFinite = true)
    (hpos : 0.0 < (g.finish - g.start).lengthSquared) : (g.finish - g.start).isFinite = true := by
  rw [scaledDirection, if_pos hpos, Vec2.isFinite, Bool.and_eq_true] at h
  exact Bool.and_eq_true _ _ ▸ ⟨isFinite_of_div h.1, isFinite_of_div h.2⟩

/-- A squared length that is rounded to zero or too large for a value leaves no direction. -/
theorem scaledDirection_eq_zero (haxis : (g.finish - g.start).isFinite = true)
    (hsquare : ¬ (0.0 < (g.finish - g.start).lengthSquared ∧
      (g.finish - g.start).lengthSquared.isFinite = true)) :
    (g.scaledDirection == Vec2.zero) = true := by
  by_cases hpos : 0.0 < (g.finish - g.start).lengthSquared
  · rcases gt_cases denotes_zero hpos with ⟨l, hl, -⟩ | hinf
    · exact absurd ⟨hpos, hl.isFinite⟩ hsquare
    · rw [Vec2.isFinite, Bool.and_eq_true] at haxis
      obtain ⟨p, hp⟩ := isFinite_iff.mp haxis.1
      obtain ⟨q, hq⟩ := isFinite_iff.mp haxis.2
      rw [scaledDirection, if_pos hpos]
      exact Vec2.beq_iff.mpr ⟨(denotes_div_infinity hp hinf).beq denotes_zero,
        (denotes_div_infinity hq hinf).beq denotes_zero⟩
  · rw [scaledDirection, if_neg hpos]
    decide

theorem lengthSquared_of_direction (hfinite : g.scaledDirection.isFinite = true)
    (hne : (g.scaledDirection == Vec2.zero) = false) :
    0.0 < (g.finish - g.start).lengthSquared ∧ (g.finish - g.start).lengthSquared.isFinite = true := by
  have hpos : 0.0 < (g.finish - g.start).lengthSquared := by
    by_contra hpos
    rw [scaledDirection, if_neg hpos] at hne
    exact absurd hne (by decide)
  by_contra hsquare
  exact Bool.eq_false_iff.mp hne (scaledDirection_eq_zero (isFinite_axis hfinite hpos) hsquare)

/-- The axis of a valid gradient is not zero, but it has a direction only if its
squared length is a positive number. If that is rounded to zero or too large for
a value, the direction is that of an axis without length. Otherwise the finish is
at the offset 1 up to some roundings and the digits that a small squared length
lacks, and within 2^-10 if the squared length is at least 2^-137. -/
theorem scaledDirection_usable (hg : g.isValid = true) :
    let axis := g.finish - g.start
    let square := axis.lengthSquared
    (axis == Vec2.zero) = false ∧
    (g.scaledDirection.isFinite = true ∧ (g.scaledDirection == Vec2.zero) = false ↔
      0.0 < square ∧ square.isFinite = true) ∧
    (axis.isFinite = true → ¬ (0.0 < square ∧ square.isFinite = true) →
      (g.scaledDirection == Vec2.zero) = true) ∧
    ∀ l, Denotes square l → 0 < l →
      Near g.finishOffset 1 (1 / 2 ^ 19 + 1 / (2 ^ 148 * l)) ∧
      (1 / 2 ^ 137 ≤ l → Near g.finishOffset 1 (1 / 2 ^ 10)) := by
  intro axis square
  have hdir (hpos : 0.0 < square) : g.scaledDirection = axis.divide square := if_pos hpos
  refine ⟨axis_ne_zero hg, ⟨fun h => lengthSquared_of_direction h.1 h.2, ?_⟩,
    fun haxis hsquare => scaledDirection_eq_zero haxis hsquare, ?_⟩
  · rintro ⟨hpos, hfinite⟩
    obtain ⟨l, hl⟩ := isFinite_iff.mp hfinite
    have hlpos := (denotes_zero.lt_iff hl).mp hpos
    rw [hdir hpos]
    exact ⟨isFinite_divided hl hlpos, divided_ne_zero hl hlpos⟩
  · intro l hl hlpos
    rw [finishOffset, hdir ((denotes_zero.lt_iff hl).mpr hlpos)]
    have hnear := near_dot_divided hl hlpos
    refine ⟨hnear, fun hbig => hnear.mono ?_⟩
    have hdigits : 1 / (2 ^ 148 * l) ≤ 1 / 2 ^ 11 :=
      one_div_le_one_div_of_le (by norm_num) (by linarith)
    linarith

/-- From black to white down a column. -/
def downwards : LinearGradient :=
  ⟨⟨10.0, 10.0⟩, ⟨10.0, 60.0⟩, [⟨0.0, ⟨0.0, 0.0, 0.0, 1.0⟩⟩, ⟨1.0, ⟨1.0, 1.0, 1.0, 1.0⟩⟩], .clamp⟩

/-- It has a direction, and its finish is at the offset 1. -/
theorem downwards_usable :
    downwards.isValid = true ∧ downwards.scaledDirection.isFinite = true ∧
      (downwards.scaledDirection == Vec2.zero) = false ∧
      Near downwards.finishOffset 1 (1 / 2 ^ 10) := by
  have hvalid : downwards.isValid = true := by decide +kernel
  obtain ⟨-, hdir, -, hoffset⟩ := scaledDirection_usable hvalid
  obtain ⟨hfinite, hne⟩ := hdir.mpr ⟨by decide +kernel, by decide +kernel⟩
  obtain ⟨l, hl⟩ := isFinite_iff.mp (hdir.mp ⟨hfinite, hne⟩).2
  have hbig := (denotes_leastNormal.le_iff hl).mp (by decide +kernel)
  have hleast : (1 : ℚ) / 2 ^ 137 ≤ 1 / 2 ^ 126 := by norm_num
  exact ⟨hvalid, hfinite, hne, (hoffset l hl (by linarith)).2 (by linarith)⟩

/-- From black to white along the x axis. -/
def rightwards (length : Float32) : LinearGradient :=
  { downwards with start := Vec2.zero, finish := ⟨length, 0.0⟩ }

/-- Valid gradients of length 2^66 and 2^-80 have no direction, and one of length 3/2^75 ends at the
offset 9/8. -/
theorem rightwards_unusable :
    ((rightwards 73786976294838206464.0).isValid = true ∧
      (rightwards 73786976294838206464.0).scaledDirection = Vec2.zero) ∧
    ((rightwards 8.271806125530277e-25).isValid = true ∧
      (rightwards 8.271806125530277e-25).scaledDirection = Vec2.zero) ∧
    (rightwards 7.940933880509066e-23).isValid = true ∧
      (rightwards 7.940933880509066e-23).finishOffset = 1.125 := by
  decide +kernel

end LinearGradient

end TileCompositor
