import TileCompositor.Proofs.Binary32.Order
import TileCompositor.Proofs.Binary32.Sums
/-!
# Neighbouring values

Two values are neighbours if no value lies strictly between them. The values
around `q` are one spacing of `q` apart, and half of one below the least
magnitude with that spacing. Rounding does not step over a value, so what has
no value between itself and `q` is rounded to `q` or to a neighbour of it.

Results:
* `Representable.unit_le_abs_sub`: how far values are apart.
* `NoneBetween.nearest`: rounding does not step over a value.
* `noneBetween_add_sub`: a sum without its smaller part.
* `noneBetween_mul_div`, `adjacent_mul_div`: a product divided by one of its factors.
-/
namespace TileCompositor.Binary32

/-! ## The distance of values -/

section Distance
variable {p q v : ℚ}

theorem IsMultiple.abs {e : ℤ} (h : IsMultiple e q) : IsMultiple e |q| := by
  obtain ⟨n, rfl⟩ := h
  exact ⟨|n|, by rw [abs_mul, abs_of_pos (two_zpow_pos e), Int.cast_abs]⟩

/-- Values are a spacing apart, or half of it where the spacing changes from one to the other. -/
theorem Representable.unit_le_abs_sub (hv : Representable v) (hq : Representable q) (h0 : q ≠ 0)
    (hne : v ≠ q) :
    unit q ≤ |v - q| ∨ |q| = 2 ^ 23 * unit q ∧ |v| < |q| ∧ unit q / 2 ≤ |v - q| := by
  rcases le_or_gt (unitExponent q) (unitExponent v) with hle | hlt
  · have hmul : IsMultiple (unitExponent q) v := IsMultiple.of_le hv.exists_eq_mul_unit hle
    exact .inl ((hmul.sub hq.exists_eq_mul_unit).le_abs (sub_ne_zero.mpr hne))
  · have hu := unit_pos q
    have hhalf : unit v ≤ unit q / 2 := by
      rw [unit, unit, div_eq_mul_inv, ← zpow_sub_one₀ (by norm_num)]
      exact zpow_le_zpow_right₀ (by norm_num) (by omega)
    have hsmall : |v| ≤ (2 ^ 23 - 1 / 2) * unit q := by
      have := hv.abs_le_mul_unit
      linarith
    have hlarge : 2 ^ 23 * unit q ≤ |q| := unit_le_abs h0 (by have := unitExponent_ge v; omega)
    have hdist : |q| - |v| ≤ |v - q| := abs_sub_comm q v ▸ abs_sub_abs_le_abs_sub q v
    rcases hlarge.eq_or_lt with heq | hgt
    · exact .inr ⟨heq.symm, by linarith, by linarith⟩
    · -- the magnitude of `q` is a whole number of its spacings, so one more than the least
      have hnext := IsMultiple.le_sub ⟨2 ^ 23, by push_cast; rfl⟩ (IsMultiple.abs hq.exists_eq_mul_unit) hgt
      rw [← unit] at hnext
      exact .inl (by linarith)

/-- From 2^-126 on a number is rounded by at most 2^-24 of itself. -/
theorem abs_nearest_sub_le_of_normal (h : 1 / 2 ^ 126 ≤ |q|) : |nearest q - q| ≤ |q| / 2 ^ 24 := by
  have hwidth : 2 ^ 23 * unit q ≤ |q| := by
    by_cases he : unitExponent q = -149
    · rw [unit, he]
      norm_num at h ⊢
      exact h
    · refine unit_le_abs ?_ he
      rintro rfl
      norm_num at h
  linarith [abs_nearest_sub_le q]

end Distance

/-! ## Numbers with no value between them -/

/-- No value lies strictly between `p` and `q`. -/
def NoneBetween (p q : ℚ) : Prop := ∀ v, Representable v → ¬ (p < v ∧ v < q) ∧ ¬ (q < v ∧ v < p)

section NoneBetween
variable {p q a : ℚ}

theorem noneBetween_self (q : ℚ) : NoneBetween q q :=
  fun _ _ => ⟨fun h => lt_asymm h.1 h.2, fun h => lt_asymm h.1 h.2⟩

/-- Rounding does not step over a value. -/
theorem NoneBetween.nearest (h : NoneBetween p q) : NoneBetween (nearest p) q := by
  intro v hv
  constructor
  · rintro ⟨hlo, hhi⟩
    exact (h v hv).1 ⟨lt_of_not_ge fun hle => not_le.mpr hlo (le_nearest hv hle), hhi⟩
  · rintro ⟨hlo, hhi⟩
    exact (h v hv).2 ⟨hlo, lt_of_not_ge fun hle => not_le.mpr hhi (nearest_le hv hle)⟩

/-- No value is nearer to `q` than `p`. -/
theorem noneBetween_of_abs_le (h : ∀ v, Representable v → v ≠ q → |p - q| ≤ |v - q|) :
    NoneBetween p q := by
  intro v hv
  constructor
  · rintro ⟨hlo, hhi⟩
    have hle := h v hv hhi.ne
    rw [abs_of_neg (by linarith), abs_of_neg (by linarith)] at hle
    linarith
  · rintro ⟨hlo, hhi⟩
    have hle := h v hv hlo.ne'
    rw [abs_of_pos (by linarith), abs_of_pos (by linarith)] at hle
    linarith

/-! ## Sums -/

/-- A number of at most 2^24 spacings of some width is rounded by half of that width. -/
theorem abs_nearest_sub_le_half {e : ℤ} (he : -149 ≤ e) (h : |p| ≤ 2 ^ 24 * 2 ^ e) :
    |nearest p - p| ≤ 2 ^ e / 2 := by
  have hpos := two_zpow_pos e
  rcases h.eq_or_lt with heq | hlt
  · have hmul : IsMultiple e p := by
      rcases (abs_eq (by positivity)).mp heq with rfl | rfl
      · exact ⟨2 ^ 24, by push_cast; ring⟩
      · exact ⟨-2 ^ 24, by push_cast; ring⟩
    rw [nearest_of_representable (hmul.representable he h), sub_self, abs_zero]
    linarith
  · by_cases h0 : p = 0
    · rw [h0, nearest_zero, sub_self, abs_zero]
      linarith
    have hwidth : unit p ≤ 2 ^ e := by
      refine zpow_le_zpow_right₀ (by norm_num) (unitExponent_le h0 he ?_)
      rw [add_comm, zpow_add₀ (by norm_num)]
      exact_mod_cast hlt
    linarith [abs_nearest_sub_le p]

/-- What rounding leaves of a sum without its smaller part has no value between itself and the larger
one. -/
theorem noneBetween_add_sub (hq : Representable q) (h : |p| ≤ |q|) :
    NoneBetween (nearest (p + q) - p) q := by
  by_cases h0 : q = 0
  · rw [h0, abs_zero] at h
    rw [h0, abs_nonpos_iff.mp h, add_zero, nearest_zero, sub_zero]
    exact noneBetween_self 0
  have hsum : nearest (p + q) - p - q = nearest (p + q) - (p + q) := by ring
  refine noneBetween_of_abs_le fun v hv hne => ?_
  rw [hsum]
  rcases hv.unit_le_abs_sub hq h0 hne with hfar | ⟨hleast, -, hnear⟩
  · have herr := abs_nearest_add_sub_le_unit h
    rw [add_comm q] at herr
    exact herr.trans hfar
  · -- the sum is at most twice the least magnitude with the spacing of `q`
    have hle : |p + q| ≤ 2 ^ 24 * unit q := (abs_add_le p q).trans (by linarith)
    exact (abs_nearest_sub_le_half (unitExponent_ge q) hle).trans hnear

/-! ## Products -/

/-- What is rounded to at least 2^-126 is rounded by less than 2^-23 of itself. -/
theorem abs_nearest_sub_le_div (h : 1 / 2 ^ 126 ≤ |nearest q|) :
    |nearest q - q| ≤ |q| / (2 ^ 24 - 1) := by
  have herr := abs_nearest_sub_le q
  rw [le_div_iff₀ (by norm_num)]
  by_cases he : unitExponent q = -149
  · have hu : unit q = 1 / 2 ^ 149 := by
      rw [unit, he]
      norm_num
    have htri : |nearest q| ≤ |nearest q - q| + |q| := by
      simpa using abs_add_le (nearest q - q) q
    rw [hu] at herr
    norm_num at h herr ⊢
    linarith
  · have h0 : q ≠ 0 := by
      rintro rfl
      norm_num at h
    have hu := unit_le_abs h0 he
    have hpos := unit_pos q
    linarith

/-- A product divided by one of its factors has no value between itself and the other one, unless the
product is too small. -/
theorem noneBetween_mul_div (hq : Representable q) (hpos : 0 < q) (ha : 0 < a)
    (h : 1 / 2 ^ 126 ≤ nearest (q * a)) : NoneBetween (nearest (q * a) / a) q := by
  have hqa : 0 < q * a := mul_pos hpos ha
  have hquot : nearest (q * a) / a - q = (nearest (q * a) - q * a) / a := by
    field_simp
  have hunit : |nearest (q * a) / a - q| ≤ unit q := by
    have herr := abs_nearest_sub_le_div (h.trans (le_abs_self _))
    rw [abs_of_pos hqa, le_div_iff₀ (by norm_num)] at herr
    rw [hquot, abs_div, abs_of_pos ha, div_le_iff₀ ha]
    have hle := mul_le_mul_of_nonneg_right hq.abs_le_mul_unit ha.le
    rw [abs_of_pos hpos] at hle
    linarith
  -- a product below 2^-126 has been rounded up, so only from there on a quotient can be too small
  have hdown : q ≤ nearest (q * a) / a ∨ |nearest (q * a) / a - q| ≤ q / 2 ^ 24 := by
    rcases lt_or_ge (q * a) (1 / 2 ^ 126) with hsub | hnormal
    · exact .inl ((le_div_iff₀ ha).mpr (hsub.le.trans h))
    · have herr := abs_nearest_sub_le_of_normal (hnormal.trans (le_abs_self _))
      rw [abs_of_pos hqa] at herr
      refine .inr ?_
      rw [hquot, abs_div, abs_of_pos ha, div_le_iff₀ ha]
      linarith
  intro v hv
  constructor
  · rintro ⟨hlo, hhi⟩
    have hdist : |v - q| < |nearest (q * a) / a - q| := by
      rw [abs_of_neg (by linarith), abs_of_neg (by linarith)]
      linarith
    rcases hv.unit_le_abs_sub hq hpos.ne' hhi.ne with hfar | ⟨hleast, -, hnear⟩
    · linarith
    · rw [abs_of_pos hpos] at hleast
      rcases hdown with hup | hpart <;> linarith
  · rintro ⟨hlo, hhi⟩
    have hdist : |v - q| < |nearest (q * a) / a - q| := by
      rw [abs_of_pos (by linarith), abs_of_pos (by linarith)]
      linarith
    rcases hv.unit_le_abs_sub hq hpos.ne' hlo.ne' with hfar | ⟨-, hless, -⟩
    · linarith
    · rw [abs_of_pos hpos, abs_of_pos (hpos.trans hlo)] at hless
      linarith

end NoneBetween

/-! ## Neighbours -/

/-- `x` and `y` are finite, and the same or neighbours: no value lies strictly between them. -/
structure Adjacent (x y : Float32) : Prop where
  left : x.isFinite = true
  right : y.isFinite = true
  noneBetween (z : Float32) : ¬ (x < z ∧ z < y) ∧ ¬ (y < z ∧ z < x)

section Adjacent
variable {x x' y : Float32} {p q : ℚ}

theorem Denotes.adjacent (hx : Denotes x p) (hy : Denotes y q) (h : NoneBetween p q) : Adjacent x y := by
  refine ⟨hx.isFinite, hy.isFinite, fun z => ⟨?_, ?_⟩⟩
  · rintro ⟨hxz, hzy⟩
    obtain ⟨v, hz, -, -⟩ := exists_of_le_of_le hx hy (le_of_lt hxz) (le_of_lt hzy)
    exact (h v hz.representable).1 ⟨(hx.lt_iff hz).mp hxz, (hz.lt_iff hy).mp hzy⟩
  · rintro ⟨hyz, hzx⟩
    obtain ⟨v, hz, -, -⟩ := exists_of_le_of_le hy hx (le_of_lt hyz) (le_of_lt hzx)
    exact (h v hz.representable).2 ⟨(hy.lt_iff hz).mp hyz, (hz.lt_iff hx).mp hzx⟩

theorem Adjacent.of_beq (h : Adjacent x y) (hx : (x' == x) = true) : Adjacent x' y := by
  obtain ⟨p, hp⟩ := isFinite_iff.mp h.left
  obtain ⟨q, hq⟩ := isFinite_iff.mp h.right
  have hp' := hp.of_beq hx
  refine ⟨hp'.isFinite, h.right, fun z => ⟨?_, ?_⟩⟩
  · rintro ⟨hxz, hzy⟩
    obtain ⟨v, hz, -, -⟩ := exists_of_le_of_le hp' hq (le_of_lt hxz) (le_of_lt hzy)
    exact (h.noneBetween z).1 ⟨(hp.lt_iff hz).mpr ((hp'.lt_iff hz).mp hxz), hzy⟩
  · rintro ⟨hyz, hzx⟩
    obtain ⟨v, hz, -, -⟩ := exists_of_le_of_le hq hp' (le_of_lt hyz) (le_of_lt hzx)
    exact (h.noneBetween z).2 ⟨hyz, (hz.lt_iff hp).mpr ((hz.lt_iff hp').mp hzx)⟩

/-- What is multiplied and divided by a weight comes out next to where it was. -/
theorem adjacent_mul_div (hx : Scalar.InUnit x) (hy : Scalar.InUnit y) (hpos : 0.0 < y)
    (h : Scalar.leastNormal ≤ x * y) : Adjacent (x * y / y) x := by
  obtain ⟨p, hp⟩ := inUnit_iff.mp hx
  obtain ⟨q, hq⟩ := inUnit_iff.mp hy
  have hqpos : 0 < q := (denotes_zero.lt_iff hq.denotes).mp hpos
  have hbig : 1 / 2 ^ 126 ≤ nearest (p * q) :=
    (denotes_leastNormal.le_iff (hp.mul hq).denotes).mp h
  have hppos : 0 < p := by
    refine hp.nonneg.lt_of_ne ?_
    rintro rfl
    norm_num at hbig
  exact (hp.mul_div hq hqpos).denotes.adjacent hp.denotes
    (noneBetween_mul_div hp.denotes.representable hppos hqpos hbig).nearest

end Adjacent

end TileCompositor.Binary32
