import TileCompositor.Proofs.Binary32.Extended
import TileCompositor.Scalar.Order
/-!
# The order of values, infinities included

Where coordinates may be infinite or NaN, comparisons are followed with ranks
instead of numbers: a number is its own rank, an infinity has the rank 2^128 or
-2^128, which no number of a value reaches, and NaN has none. Values compare
as their ranks do, and what compares at all has a rank.

Results:
* `Ranks.lt_iff`, `Ranks.le_iff`, `ranks_of_le`: comparisons are those of the ranks.
* `lt_of_le_of_lt`, `not_lt_of_le`: order without any assumption on the values.
* `nonneg_sub`, `nonneg_half_mul`: results that are not negative.
* `Rounded.ranks`, `mul_le_mul_of_pos`, `div_le_div_of_pos`: results that may overflow, and scaling.
* `minNum_le_maxNum`, `clamp_of_hi_lt`, `clamp_hi`, `clamp_le_lo`, `clamp_of_isNaN`: minimum, maximum
  and clamping.
-/
namespace TileCompositor.Binary32
open Float.Model (Format UnpackedFloat)
open Float.Model.UnpackedFloat

/-- The rank of a value among the others. -/
inductive Ranks (x : Float32) : ℚ → Prop where
  | number {q : ℚ} (h : Denotes x q) : Ranks x q
  | infinity {s : Sign} (h : view x = .infinity s) : Ranks x (signValue s * 2 ^ 128)

variable {x y z : Float32} {p q : ℚ}

/-- A value has a rank or is NaN. -/
theorem ranks_or_isNaN (x : Float32) : (∃ q, Ranks x q) ∨ x.isNaN = true := by
  rcases kind_cases x with ⟨q, hx⟩ | ⟨s, hs⟩ | hs
  · exact .inl ⟨q, .number hx⟩
  · exact .inl ⟨_, .infinity hs⟩
  · exact .inr (isNaN_iff.mpr hs)

theorem exists_ranks (h : x.isNaN = false) : ∃ q, Ranks x q :=
  (ranks_or_isNaN x).resolve_right (by rw [h]; exact Bool.false_ne_true)

/-! ## Comparison -/

/-- A number compares with an infinity by the sign of the infinity. -/
theorem compare_infinity {s : Sign} (hx : Denotes x q) (hy : view y = .infinity s) :
    UnpackedFloat.compare (view x) (view y) = some (Ord.compare q (signValue s * 2 ^ 128)) ∧
      UnpackedFloat.compare (view y) (view x) = some (Ord.compare (signValue s * 2 ^ 128) q) := by
  obtain ⟨hlo, hhi⟩ := abs_lt.mp hx.abs_lt
  rw [hy]
  cases s with
  | negative =>
    rw [signValue_negative, neg_one_mul, compare_gt_iff_gt.mpr hlo, compare_lt_iff_lt.mpr hlo]
    obtain ⟨s, hs⟩ | ⟨s, m, e, hm, hs⟩ := isFinite_cases hx.finite <;> rw [hs] <;> exact ⟨rfl, rfl⟩
  | positive =>
    rw [signValue_positive, one_mul, compare_lt_iff_lt.mpr hhi, compare_gt_iff_gt.mpr hhi]
    obtain ⟨s, hs⟩ | ⟨s, m, e, hm, hs⟩ := isFinite_cases hx.finite <;> rw [hs] <;> exact ⟨rfl, rfl⟩

theorem compare_signs (s t : Sign) :
    Ord.compare s t = Ord.compare (signValue s * (2 : ℚ) ^ 128) (signValue t * 2 ^ 128) := by
  cases s <;> cases t
  · rw [compare_eq_iff_eq.mpr rfl]
    rfl
  · rw [compare_lt_iff_lt.mpr (by norm_num)]
    rfl
  · rw [compare_gt_iff_gt.mpr (by norm_num)]
    rfl
  · rw [compare_eq_iff_eq.mpr rfl]
    rfl

theorem Ranks.compare (hx : Ranks x p) (hy : Ranks y q) :
    UnpackedFloat.compare (view x) (view y) = some (Ord.compare p q) := by
  cases hx with
  | number hx =>
    cases hy with
    | number hy => exact hx.compare hy
    | infinity hy => exact (compare_infinity hx hy).1
  | infinity hx =>
    cases hy with
    | number hy => exact (compare_infinity hy hx).2
    | infinity hy =>
      rw [hx, hy, ← compare_signs]
      rfl

theorem Ranks.lt_iff (hx : Ranks x p) (hy : Ranks y q) : x < y ↔ p < q :=
  lt_iff_of_compare (hx.compare hy)

theorem Ranks.le_iff (hx : Ranks x p) (hy : Ranks y q) : x ≤ y ↔ p ≤ q :=
  le_iff_of_compare (hx.compare hy)

/-- What compares has a rank. -/
theorem ranks_of_le (h : x ≤ y) : ∃ p q, Ranks x p ∧ Ranks y q ∧ p ≤ q := by
  have hcompare := (le_eq x y).mp h
  rcases ranks_or_isNaN x with ⟨p, hx⟩ | hx
  · rcases ranks_or_isNaN y with ⟨q, hy⟩ | hy
    · exact ⟨p, q, hx, hy, (hx.le_iff hy).mp h⟩
    · rw [isNaN_iff.mp hy] at hcompare
      cases hv : view x <;> rw [hv] at hcompare <;> cases hcompare
  · rw [isNaN_iff.mp hx] at hcompare
    cases hcompare

/-- Values of which neither is less compare as equal. -/
theorem beq_of_le_of_le (h : x ≤ y) (h' : y ≤ x) : (x == y) = true := by
  obtain ⟨p, q, hx, hy, hpq⟩ := ranks_of_le h
  have hqp : q ≤ p := (hy.le_iff hx).mp h'
  rw [beq_eq, hx.compare hy, compare_eq_iff_eq.mpr (le_antisymm hpq hqp)]

theorem le_of_lt (h : x < y) : x ≤ y := by
  rw [le_eq, (lt_eq x y).mp h]
  rfl

theorem ranks_of_lt (h : x < y) : ∃ p q, Ranks x p ∧ Ranks y q ∧ p < q := by
  obtain ⟨p, q, hx, hy, -⟩ := ranks_of_le (le_of_lt h)
  exact ⟨p, q, hx, hy, (hx.lt_iff hy).mp h⟩

theorem lt_of_le_of_lt (h : x ≤ y) (h' : y < z) : x < z := by
  obtain ⟨p, q, hx, hy, hpq⟩ := ranks_of_le h
  obtain ⟨-, r, -, hz, -⟩ := ranks_of_lt h'
  exact (hx.lt_iff hz).mpr (hpq.trans_lt ((hy.lt_iff hz).mp h'))

theorem not_lt_of_le (h : x ≤ y) : ¬ y < x := by
  obtain ⟨p, q, hx, hy, hpq⟩ := ranks_of_le h
  rw [hy.lt_iff hx]
  exact not_lt.mpr hpq

theorem ranks_zero : Ranks 0.0 0 := .number denotes_zero

theorem isNaN_of_ranks (h : Ranks x q) : x.isNaN = false := by
  cases h with
  | number h => exact h.isNaN
  | infinity h => exact isNaN_of_infinity h

/-! ## Results that are not negative -/

theorem isNaN_sub_right (x : Float32) (h : y.isNaN = true) : (x - y).isNaN = true := by
  have hu : UnpackedFloat.sub Format.binary32 (view x) (view y) = .notANumber := by
    rw [isNaN_iff.mp h]
    cases view x <;> rfl
  exact isNaN_pack hu

theorem nonneg_of_infinity (h : view x = .infinity .positive) : 0.0 ≤ x :=
  (ranks_zero.le_iff (.infinity h)).mpr (by norm_num)

/-- A difference with an infinity in it, the smaller operand taken from the larger one. -/
theorem sub_of_infinite {u v : UnpackedFloat} (hinf : u.isFinite = false ∨ v.isFinite = false)
    (hle : (UnpackedFloat.compare u v).any (·.isLE) = true)
    (hnan : UnpackedFloat.sub Format.binary32 v u ≠ .notANumber) :
    UnpackedFloat.sub Format.binary32 v u = .infinity .positive := by
  cases u with
  | notANumber => cases hle
  | infinity s =>
    cases s <;> cases v with
    | infinity t => cases t <;> first | rfl | exact absurd rfl hnan | cases hle
    | _ => first | rfl | cases hle
  | zero s =>
    cases v with
    | infinity t => cases t <;> first | rfl | cases hle
    | notANumber => cases hle
    | _ => simp [UnpackedFloat.isFinite] at hinf
  | finite s m e hm =>
    cases v with
    | infinity t => cases s <;> cases t <;> first | rfl | cases hle
    | notANumber => cases hle
    | _ => simp [UnpackedFloat.isFinite] at hinf

/-- A smaller value taken from a larger one, unless both are the same infinity. -/
theorem nonneg_sub (h : x ≤ y) (hnan : (y - x).isNaN = false) : 0.0 ≤ y - x := by
  by_cases hfin : x.isFinite = true ∧ y.isFinite = true
  · obtain ⟨p, hx⟩ := isFinite_iff.mp hfin.1
    obtain ⟨q, hy⟩ := isFinite_iff.mp hfin.2
    have hpq : 0 ≤ q - p := sub_nonneg.mpr ((hx.le_iff hy).mp h)
    rcases (hy.rounded_sub hx).denotes_or_infinity hpq with hsub | hsub
    · exact (denotes_zero.le_iff hsub).mpr (nearest_nonneg hpq)
    · exact nonneg_of_infinity hsub
  · have hinf : (view x).isFinite = false ∨ (view y).isFinite = false := by
      rw [not_and_or, Bool.not_eq_true, Bool.not_eq_true] at hfin
      exact hfin
    have hsub := sub_of_infinite hinf ((le_eq x y).mp h) fun hu => by
      rw [show (y - x).isNaN = true from isNaN_pack hu] at hnan
      cases hnan
    exact nonneg_of_infinity (infinity_pack hsub)

theorem nonneg_cases (h : 0.0 ≤ x) : (∃ q, Denotes x q ∧ 0 ≤ q) ∨ view x = .infinity .positive := by
  obtain ⟨-, q, -, hx, -⟩ := ranks_of_le h
  have hq : 0 ≤ q := (ranks_zero.le_iff hx).mp h
  cases hx with
  | number hx => exact .inl ⟨q, hx, hq⟩
  | @infinity s hx =>
    cases s with
    | positive => exact .inr hx
    | negative => norm_num at hq

theorem nonneg_half_mul (h : 0.0 ≤ x) : 0.0 ≤ 0.5 * x := by
  rcases nonneg_cases h with ⟨q, hx, hq⟩ | hx
  · have hhalf : 0 ≤ 1 / 2 * q := mul_nonneg (by norm_num) hq
    have hle : nearest (1 / 2 * q) ≤ q := nearest_le hx.representable (by linarith)
    have hlt : |nearest (1 / 2 * q)| < 2 ^ 128 := by
      rw [abs_of_nonneg (nearest_nonneg hhalf)]
      exact hle.trans_lt ((le_abs_self q).trans_lt hx.abs_lt)
    exact (denotes_zero.le_iff (denotes_half.mul hx hlt)).mpr (nearest_nonneg hhalf)
  · have hmul : UnpackedFloat.mul Format.binary32 (view 0.5) (view x) = .infinity .positive := by
      rw [hx]
      rfl
    exact nonneg_of_infinity (infinity_pack hmul)

/-! ## Results that overflow -/

theorem Ranks.abs_le (h : Ranks x q) : |q| ≤ 2 ^ 128 := by
  cases h with
  | number h => exact h.abs_lt.le
  | infinity _ => rw [abs_mul, abs_signValue, one_mul, abs_of_pos (by positivity)]

/-- The rank of a result: beyond all values it is that of the infinity on its side. -/
def saturated (q : ℚ) : ℚ := max (-2 ^ 128) (min q (2 ^ 128))

theorem saturated_mono (h : p ≤ q) : saturated p ≤ saturated q :=
  max_le_max le_rfl (min_le_min_right _ h)

theorem Rounded.ranks {u : UnpackedFloat} (h : Rounded u q) :
    Ranks (Float32.ofModel (Float32.Model.pack u)) (saturated (nearest q)) := by
  by_cases hlt : |nearest q| < 2 ^ 128
  · obtain ⟨hlo, hhi⟩ := abs_lt.mp hlt
    rw [saturated, min_eq_left hhi.le, max_eq_right hlo.le]
    exact .number (h.denotes hlt)
  · have hlarge := not_lt.mp hlt
    obtain ⟨s, hs, hside⟩ := h.infinity_of_large hlarge
    have hrank : saturated (nearest q) = signValue s * 2 ^ 128 := by
      cases s with
      | positive =>
        rw [signValue_positive, one_mul] at hside ⊢
        rw [abs_of_pos hside] at hlarge
        rw [saturated, min_eq_right hlarge, max_eq_right (by norm_num)]
      | negative =>
        rw [signValue_negative, neg_one_mul, neg_pos] at hside
        rw [abs_of_neg hside] at hlarge
        rw [signValue_negative, neg_one_mul, saturated, min_eq_left (by linarith), max_eq_left (by linarith)]
    rw [hrank]
    exact .infinity hs

section Scaling
variable {k : Float32} {c : ℚ}

/-- Numbers that are multiplied by a positive one keep their order, even where they overflow. -/
theorem mul_le_mul_of_pos (hk : Denotes k c) (hc : 0 < c) (hx : Denotes x p) (hy : Denotes y q)
    (h : x ≤ y) : x * k ≤ y * k := by
  have hpq : p ≤ q := (hx.le_iff hy).mp h
  refine ((hx.rounded_mul hk).ranks.le_iff (hy.rounded_mul hk).ranks).mpr (saturated_mono (nearest_mono ?_))
  exact mul_le_mul_of_nonneg_right hpq hc.le

/-- What is divided by a positive number keeps its order; infinities stay. -/
theorem div_le_div_of_pos (hk : Denotes k c) (hc : 0 < c) (h : x ≤ y) : x / k ≤ y / k := by
  obtain ⟨p, q, hx, hy, hpq⟩ := ranks_of_le h
  cases hx with
  | number hx =>
    have hquotient := (hx.rounded_div hk hc.ne').ranks
    cases hy with
    | number hy =>
      refine (hquotient.le_iff (hy.rounded_div hk hc.ne').ranks).mpr (saturated_mono (nearest_mono ?_))
      exact div_le_div_of_nonneg_right hpq hc.le
    | @infinity s hy =>
      cases s with
      | positive =>
        refine (hquotient.le_iff (.infinity (infinity_div hy hk hc))).mpr ?_
        rw [signValue_positive, one_mul]
        exact (abs_le.mp hquotient.abs_le).2
      | negative => linarith [(abs_lt.mp hx.abs_lt).1, signValue_negative]
  | @infinity s hx =>
    have hquotient := Ranks.infinity (infinity_div hx hk hc)
    cases hy with
    | number hy =>
      have hquotient' := (hy.rounded_div hk hc.ne').ranks
      cases s with
      | positive => linarith [(abs_lt.mp hy.abs_lt).2, signValue_positive]
      | negative =>
        refine (hquotient.le_iff hquotient').mpr ?_
        rw [signValue_negative, neg_one_mul]
        exact (abs_le.mp hquotient'.abs_le).1
    | infinity hy => exact (hquotient.le_iff (.infinity (infinity_div hy hk hc))).mpr hpq

end Scaling

/-! ## Minimum, maximum and clamping -/

open Scalar

theorem minNum_nonneg (hx : 0.0 ≤ x) (hy : 0.0 ≤ y) : 0.0 ≤ minNum x y := by
  unfold minNum
  split_ifs
  · exact hx
  · exact hx
  · exact hy

theorem minNum_of_isNaN (x : Float32) (hy : y.isNaN = true) : minNum x y = x := if_pos hy

theorem maxNum_of_isNaN (x : Float32) (hy : y.isNaN = true) : maxNum x y = x := if_pos hy

theorem le_self (h : x.isNaN = false) : x ≤ x := by
  obtain ⟨q, hx⟩ := exists_ranks h
  exact (hx.le_iff hx).mpr le_rfl

/-- A second operand that is NaN is ignored by both. -/
theorem minNum_le_maxNum (y : Float32) (hx : x.isNaN = false) : minNum x y ≤ maxNum x y := by
  cases hy : y.isNaN with
  | true =>
    rw [minNum_of_isNaN x hy, maxNum_of_isNaN x hy]
    exact le_self hx
  | false =>
    obtain ⟨p, hxp⟩ := exists_ranks hx
    obtain ⟨q, hyq⟩ := exists_ranks hy
    have hlt := hxp.lt_iff hyq
    have hgt := hyq.lt_iff hxp
    simp only [minNum, maxNum, hy, Bool.false_eq_true, if_false, hlt, hgt]
    split_ifs with h h'
    · exact absurd h h'.not_gt
    · exact (hxp.le_iff hyq).mpr h.le
    · exact (hyq.le_iff hxp).mpr (not_lt.mp h)
    · exact le_self hy

section Clamp
variable {lo hi : Float32}

theorem clamp_of_hi_lt (h : lo ≤ hi) (hx : hi < x) : clamp x lo hi = hi := by
  have hlo : ¬ x < lo := not_lt_of_le (le_of_lt (lt_of_le_of_lt h hx))
  rw [clamp, if_neg hlo, if_pos hx]

theorem clamp_hi (h : lo ≤ hi) : clamp hi lo hi = hi := by
  rw [clamp, if_neg (not_lt_of_le h), ite_self]

/-- What is not above the lower bound is not above it afterwards. -/
theorem clamp_le_lo (h : lo ≤ hi) (hx : x ≤ lo) : clamp x lo hi ≤ lo := by
  by_cases hlt : x < lo
  · obtain ⟨p, -, hlo, -, -⟩ := ranks_of_le h
    rw [clamp, if_pos hlt, if_neg (not_lt_of_le h)]
    exact (hlo.le_iff hlo).mpr le_rfl
  · have hhi : ¬ hi < x := fun hgt => not_lt_of_le hx (lt_of_le_of_lt h hgt)
    rw [clamp, if_neg hlt, if_neg hhi]
    exact hx

/-- NaN is on neither side of the bounds. -/
theorem clamp_of_isNaN (hx : x.isNaN = true) : clamp x lo hi = x := by
  have hnone (q : ℚ) (h : Ranks x q) : False :=
    absurd (hx.symm.trans (isNaN_of_ranks h)) Bool.true_eq_false.mp
  have hlo : ¬ x < lo := fun h => by
    obtain ⟨p, -, h, -, -⟩ := ranks_of_lt h
    exact hnone p h
  have hhi : ¬ hi < x := fun h => by
    obtain ⟨-, q, -, h, -⟩ := ranks_of_lt h
    exact hnone q h
  rw [clamp, if_neg hlo, if_neg hhi]

end Clamp

end TileCompositor.Binary32
