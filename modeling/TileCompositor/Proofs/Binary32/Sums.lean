import TileCompositor.Proofs.Binary32.UnitInterval
/-!
# What rounding leaves of a sum

The sum of two values is rounded, and then one of them is taken away again. If
that is the larger one, the difference is a value, so nothing else is rounded:
what is left is the other one exactly if the sum was exact. A difference that
is rounded may lose the sum when it is added again, but not if both values are
not negative.

Results:
* `representable_nearest_add_sub`: a rounded sum without its larger part is a value.
* `Representable.sub_of_le`: so is the difference of values that are at most twice each other.
* `nearest_add_nearest_sub_cancel`: adding the rounded difference again, nothing being negative.
* `representable_sub_of_cancel`: where a negative part was added, this needs an exact difference.
-/
namespace TileCompositor.Binary32

/-! ## Exact differences -/

theorem IsMultiple.representable {e : ℤ} {q : ℚ} (h : IsMultiple e q) (he : -149 ≤ e)
    (hle : |q| ≤ 2 ^ 24 * 2 ^ e) : Representable q := by
  obtain ⟨n, rfl⟩ := h
  refine ⟨n, e, ?_, he, rfl⟩
  rw [abs_mul, abs_of_pos (two_zpow_pos e)] at hle
  exact_mod_cast le_of_mul_le_mul_right hle (two_zpow_pos e)

/-- A value is a multiple of the spacing around any number that is not greater. -/
theorem Representable.isMultiple_unitExponent {p q : ℚ} (hp : Representable p) (h0 : 0 < |q|)
    (h : |q| ≤ |p|) : IsMultiple (unitExponent q) p :=
  IsMultiple.of_le hp.exists_eq_mul_unit (unitExponent_mono h0 h)

/-- The spacing around a sum is at most twice that around its larger part. -/
theorem unitExponent_add_le {p q : ℚ} (h : |q| ≤ |p|) (h0 : p + q ≠ 0) :
    unitExponent (p + q) ≤ unitExponent p + 1 := by
  have habs := (abs_add_le p q).trans (add_le_add_right h |p|)
  have hlt := abs_lt_unit p
  refine unitExponent_le h0 (by have := unitExponent_ge p; omega) ?_
  rw [show unitExponent p + 1 + 24 = unitExponent p + 25 by ring, zpow_add₀ (by norm_num)]
  unfold unit at hlt
  norm_num at hlt ⊢
  linarith

/-- So it is rounded by at most the latter. -/
theorem abs_nearest_add_sub_le_unit {p q : ℚ} (h : |q| ≤ |p|) :
    |nearest (p + q) - (p + q)| ≤ unit p := by
  by_cases h0 : p + q = 0
  · rw [h0, nearest_zero, sub_self, abs_zero]
    exact (unit_pos p).le
  have hunit : unit (p + q) ≤ unit p * 2 := by
    rw [unit, unit, ← zpow_add_one₀ (by norm_num)]
    exact zpow_le_zpow_right₀ (by norm_num) (unitExponent_add_le h h0)
  linarith [abs_nearest_sub_le (p + q)]

/-- What rounding leaves of a sum without its larger part is a value. -/
theorem representable_nearest_add_sub {p q : ℚ} (hp : Representable p) (hq : Representable q)
    (h : |q| ≤ |p|) : Representable (nearest (p + q) - p) := by
  by_cases hexact : nearest (p + q) = p + q
  · rw [hexact, add_sub_cancel_left]
    exact hq
  have hq0 : 0 < |q| := by
    refine abs_pos.mpr fun hq0 => hexact ?_
    rw [hq0, add_zero, nearest_of_representable hp]
  have hsum0 : p + q ≠ 0 := fun hsum => hexact (by rw [hsum, nearest_zero])
  have hpq := (hp.isMultiple_unitExponent hq0 h).add hq.exists_eq_mul_unit
  -- the sum is not a multiple of its spacing, so this is wider than that of the smaller part
  have hwider : unitExponent q < unitExponent (p + q) := by
    by_contra hle
    obtain ⟨n, hn⟩ := hpq.of_le (not_lt.mp hle)
    exact hexact (nearest_of_eq_mul n hn)
  have hnarrow := unitExponent_add_le h hsum0
  have hmultiple : IsMultiple (unitExponent (p + q) - 1) (nearest (p + q) - p) := by
    refine IsMultiple.sub (IsMultiple.of_le ⟨nearestInt ((p + q) / unit (p + q)), rfl⟩ (by omega)) ?_
    exact IsMultiple.of_le hp.exists_eq_mul_unit (by omega)
  refine hmultiple.representable (by have := unitExponent_ge q; omega) ?_
  have hhalf : unit (p + q) / 2 = 2 ^ (unitExponent (p + q) - 1) := by
    rw [unit, zpow_sub_one₀ (by norm_num)]
    ring
  have hunit : unit q ≤ 2 ^ (unitExponent (p + q) - 1) := zpow_le_zpow_right₀ (by norm_num) (by omega)
  have herr := abs_nearest_sub_le (p + q)
  have hqle := hq.abs_le_mul_unit
  calc |nearest (p + q) - p| = |(nearest (p + q) - (p + q)) + q| := by ring_nf
    _ ≤ |nearest (p + q) - (p + q)| + |q| := abs_add_le _ _
    _ ≤ 2 ^ 24 * 2 ^ (unitExponent (p + q) - 1) := by linarith

theorem Representable.two_mul {q : ℚ} (h : Representable q) : Representable (2 * q) := by
  obtain ⟨m, e, hm, he, rfl⟩ := h
  exact ⟨m, e + 1, hm, by omega, by rw [zpow_add_one₀ (by norm_num)]; ring⟩

theorem representable_sub_of_le_of_le {x y : ℚ} (hx : Representable x) (hy : Representable y)
    (hxy : x ≤ y) (hyx : y ≤ 2 * x) : Representable (y - x) := by
  rcases (by linarith : 0 ≤ x).eq_or_lt with rfl | hpos
  · rwa [sub_zero]
  have habs : |x| = x := abs_of_pos hpos
  have hmultiple : IsMultiple (unitExponent x) (y - x) :=
    (hy.isMultiple_unitExponent (abs_pos.mpr hpos.ne') (abs_le_abs_of_nonneg hpos.le hxy)).sub
      hx.exists_eq_mul_unit
  refine hmultiple.representable (unitExponent_ge x) ?_
  have hlt := abs_lt_unit x
  rw [habs] at hlt
  rw [abs_of_nonneg (by linarith)]
  exact (by linarith : y - x ≤ x).trans hlt.le

/-- The difference of values that are at most twice each other is a value. -/
theorem Representable.sub_of_le {x y : ℚ} (hx : Representable x) (hy : Representable y)
    (hxy : x ≤ 2 * y) (hyx : y ≤ 2 * x) : Representable (x - y) := by
  rcases le_total x y with h | h
  · rw [← neg_sub]
    exact (representable_sub_of_le_of_le hx hy h hyx).neg
  · exact representable_sub_of_le_of_le hy hx h hxy

/-! ## Adding a rounded difference again -/

/-- What a number is rounded to: at most half a spacing away, and even if it is half a spacing away. -/
theorem nearest_eq_mul_iff {q : ℚ} {n : ℤ} :
    nearest q = n * unit q ↔
      |q - n * unit q| ≤ unit q / 2 ∧ (|q - n * unit q| = unit q / 2 → n % 2 = 0) := by
  have hu := unit_pos q
  have hscale : |q - n * unit q| = |q / unit q - n| * unit q := by
    conv_rhs => rw [← abs_of_pos hu, ← abs_mul, abs_of_pos hu, sub_mul, div_mul_cancel₀ _ hu.ne']
  have hhalf : unit q / 2 = 1 / 2 * unit q := by ring
  rw [nearest, mul_left_inj' hu.ne', Int.cast_inj, nearestInt_eq_iff, hscale, hhalf,
    mul_le_mul_iff_left₀ hu, mul_left_inj' hu.ne']

/-- A value to which a number below it is rounded takes as much above it. -/
theorem nearest_add_eq {f d e : ℚ} (hf : Representable f) (hd : 0 ≤ d) (hde : d ≤ e) (hef : e ≤ f)
    (h : nearest (f - e) = f) : nearest (f + d) = f := by
  rcases hd.eq_or_lt with rfl | hdpos
  · rw [add_zero, nearest_of_representable hf]
  have hfpos : 0 < f := by linarith
  have hbelow : 0 < f - e := by
    refine (by linarith : 0 ≤ f - e).lt_of_ne fun h0 => ?_
    rw [← h0, nearest_zero] at h
    linarith
  have hm : nearest (f - e) = nearestInt ((f - e) / unit (f - e)) * unit (f - e) := rfl
  generalize nearestInt ((f - e) / unit (f - e)) = m at hm
  obtain ⟨hle, htie⟩ := nearest_eq_mul_iff.mp hm
  rw [h] at hm
  rw [← hm, sub_sub_cancel_left, abs_neg, abs_of_pos (by linarith)] at hle htie
  have hmono : unit (f - e) ≤ unit f :=
    zpow_le_zpow_right₀ (by norm_num) (unitExponent_mono (abs_pos.mpr hbelow.ne') (by
      rw [abs_of_pos hbelow, abs_of_pos hfpos]
      linarith))
  have hsame : unit (f + d) = unit f := by
    have hup : unitExponent f ≤ unitExponent (f + d) :=
      unitExponent_mono (abs_pos.mpr hfpos.ne') (by
        rw [abs_of_pos hfpos, abs_of_pos (by linarith)]
        linarith)
    have hdown : unitExponent (f + d) ≤ unitExponent f := by
      refine unitExponent_le (by linarith) (unitExponent_ge f) ?_
      have hle := hf.abs_le_mul_unit
      have hu := unit_pos f
      rw [abs_of_pos hfpos] at hle
      rw [abs_of_pos (by linarith), add_comm (unitExponent f), zpow_add₀ (by norm_num)]
      change f + d < 2 ^ (24 : ℤ) * unit f
      norm_num at hle ⊢
      linarith
    rw [unit, unit, le_antisymm hdown hup]
  obtain ⟨n, hn⟩ := hf.exists_eq_mul_unit
  rw [← hsame] at hn hmono
  have hround : nearest (f + d) = n * unit (f + d) := by
    rw [nearest_eq_mul_iff, ← hn, add_sub_cancel_left, abs_of_pos hdpos]
    refine ⟨by linarith, fun hhalf => ?_⟩
    have heq : unit (f - e) = unit (f + d) := by linarith
    have hnm : (n : ℚ) * unit (f + d) = m * unit (f + d) := by rw [← hn, ← heq, ← hm]
    rw [show n = m by exact_mod_cast mul_right_cancel₀ (unit_pos _).ne' hnm]
    exact htie (by linarith)
  rw [hround, ← hn]

/-- A value to which a number above it is rounded takes as much below it, as long as the spacing
there is not too narrow. -/
theorem nearest_sub_eq {f d e : ℚ} (hd : 0 ≤ d) (hde : d ≤ e) (hdf : d < f)
    (hhalf : d ≤ unit (f - d) / 2) (h : nearest (f + e) = f) : nearest (f - d) = f := by
  have hm : nearest (f + e) = nearestInt ((f + e) / unit (f + e)) * unit (f + e) := rfl
  generalize nearestInt ((f + e) / unit (f + e)) = m at hm
  obtain ⟨hle, htie⟩ := nearest_eq_mul_iff.mp hm
  rw [h] at hm
  rw [← hm, add_sub_cancel_left, abs_of_nonneg (by linarith)] at hle htie
  have hexp : unitExponent (f - d) ≤ unitExponent (f + e) :=
    unitExponent_mono (abs_pos.mpr (by linarith)) (by
      rw [abs_of_pos (by linarith), abs_of_pos (by linarith)]
      linarith)
  obtain ⟨k, hk⟩ : ∃ k : ℕ, unitExponent (f + e) = unitExponent (f - d) + k :=
    ⟨(unitExponent (f + e) - unitExponent (f - d)).toNat, by omega⟩
  have hscale : unit (f + e) = 2 ^ k * unit (f - d) := by
    rw [unit, hk, zpow_add₀ (by norm_num), zpow_natCast, mul_comm]
    rfl
  have hn : f = (m * 2 ^ k : ℤ) * unit (f - d) := by
    conv_lhs => rw [hm, hscale]
    push_cast
    ring
  have hround : nearest (f - d) = (m * 2 ^ k : ℤ) * unit (f - d) := by
    rw [nearest_eq_mul_iff, ← hn, sub_sub_cancel_left, abs_neg, abs_of_nonneg hd]
    refine ⟨hhalf, fun heq => ?_⟩
    cases k with
    | zero =>
      rw [pow_zero, one_mul] at hscale
      rw [pow_zero, mul_one]
      exact htie (by linarith)
    | succ k =>
      rw [pow_succ, ← mul_assoc]
      exact Int.mul_emod_left _ _
  rw [hround, ← hn]

/-- Rounding does not narrow the spacing. -/
theorem unitExponent_le_of_nearest_le {t x : ℚ} (ht : 0 ≤ t) (h : nearest t ≤ x) (h0 : t ≠ 0) :
    unitExponent t ≤ unitExponent x := by
  by_cases he : unitExponent t = -149
  · rw [he]
    exact unitExponent_ge x
  have hge := unitExponent_ge t
  have hpow : (2 : ℚ) ^ (unitExponent t + 23) ≤ t := by
    have hle := unit_le_abs h0 he
    rw [abs_of_nonneg ht] at hle
    rw [add_comm, zpow_add₀ (by norm_num)]
    exact_mod_cast hle
  have hx := (le_nearest (representable_zpow (by omega)) hpow).trans h
  have hpos := two_zpow_pos (unitExponent t + 23)
  have hexp : unitExponent (2 ^ (unitExponent t + 23)) = unitExponent t := by
    refine unitExponent_eq hge ?_ ?_ <;> rw [abs_of_pos hpos]
    exact zpow_lt_zpow_right₀ (by norm_num) (by omega)
  rw [← hexp]
  refine unitExponent_mono (abs_pos.mpr hpos.ne') ?_
  rw [abs_of_pos hpos, abs_of_pos (hpos.trans_le hx)]
  exact hx

/-- Taking one part away from a rounded sum of two that are not negative and adding it again gives
the rounded sum, with both roundings in place. -/
theorem nearest_add_nearest_sub_cancel {p q : ℚ} (hp : Representable p) (hq : Representable q)
    (h0 : 0 ≤ p) (h1 : 0 ≤ q) :
    nearest (p + nearest (nearest (p + q) - p)) = nearest (p + q) := by
  rcases h0.eq_or_lt with rfl | hpos
  · simp only [zero_add, sub_zero, nearest_of_representable hq]
  obtain ⟨f, hf⟩ : ∃ f, nearest (p + q) = f := ⟨_, rfl⟩
  have hrep : Representable f := hf ▸ nearest_representable _
  have hfix : nearest f = f := nearest_of_representable hrep
  have hpf : p ≤ f := hf ▸ le_nearest hp (by linarith)
  have herr := abs_nearest_sub_le_abs_sub (f - p) hq
  rw [hf]
  -- the rounded difference lies between the exact one and `q`, or beyond it by less than `q` does
  rcases le_total q (f - p) with hqt | hqt <;> rcases le_total (nearest (f - p)) (f - p) with hle | hle
  · have hlow := le_nearest hq hqt
    apply le_antisymm
    · rw [← hfix]
      exact nearest_mono (by rw [hfix]; linarith)
    · rw [← hf]
      exact nearest_mono (by rw [hf]; linarith)
  · rw [abs_of_nonneg (by linarith), abs_of_nonpos (by linarith)] at herr
    have h := nearest_add_eq hrep (d := nearest (f - p) - (f - p)) (e := f - p - q)
      (by linarith) (by linarith) (by linarith) (by rw [← hf]; ring_nf)
    rwa [show f + (nearest (f - p) - (f - p)) = p + nearest (f - p) by ring] at h
  · rw [abs_of_nonpos (by linarith), abs_of_nonneg (by linarith)] at herr
    have hrest : 0 ≤ nearest (f - p) := nearest_nonneg (by linarith)
    have hbelow : f - (f - p - nearest (f - p)) = p + nearest (f - p) := by ring
    have hhalf : f - p - nearest (f - p) ≤ unit (p + nearest (f - p)) / 2 := by
      have hu := unit_pos (p + nearest (f - p))
      by_cases h0 : f - p = 0
      · rw [h0, nearest_zero] at hu ⊢
        linarith
      · have hexp : unit (f - p) ≤ unit (p + nearest (f - p)) :=
          zpow_le_zpow_right₀ (by norm_num)
            (unitExponent_le_of_nearest_le (by linarith) (by linarith) h0)
        have hhalf := neg_le_of_abs_le (abs_nearest_sub_le (f - p))
        linarith
    have h := nearest_sub_eq (f := f) (d := f - p - nearest (f - p)) (e := q - (f - p))
      (by linarith) (by linarith) (by linarith) (by rwa [hbelow]) (by rw [← hf]; ring_nf)
    rwa [hbelow] at h
  · have hhigh := nearest_le hq hqt
    apply le_antisymm
    · rw [← hf]
      exact nearest_mono (by rw [hf]; linarith)
    · rw [← hfix]
      exact nearest_mono (by rw [hfix]; linarith)


/-- Where a negative part was added, the rounded difference leads back to the other part only if it
is exact. -/
theorem representable_sub_of_cancel {p q : ℚ} (hp : Representable p) (hq : Representable q)
    (hneg : q < 0) (h : nearest (nearest (p + q) + nearest (p - nearest (p + q))) = p) :
    Representable (p - nearest (p + q)) := by
  obtain ⟨a, ha⟩ : ∃ a, nearest (p + q) = a := ⟨_, rfl⟩
  have hrep : Representable a := ha ▸ nearest_representable _
  have hap : a ≤ p := ha ▸ nearest_le hp (by linarith)
  rw [ha] at h ⊢
  rcases le_total p 0 with hp0 | hp0
  · -- the difference is not larger than the sum, so what the second sum leaves of it is exact
    have hle : nearest (p - a) ≤ -a := nearest_le hrep.neg (by linarith)
    have habs : |nearest (p - a)| ≤ |a| := by
      rw [abs_of_nonneg (nearest_nonneg (by linarith)), abs_of_nonpos (by linarith)]
      exact hle
    have hleft := representable_nearest_add_sub hrep (nearest_representable (p - a)) habs
    rwa [h] at hleft
  rcases le_total (2 * p) (-q) with hsmall | hlarge
  · -- the difference is at most twice the sum, so the second sum is exact
    have hle : p ≤ -a := by
      have := nearest_le hp.neg (q := p + q) (by linarith)
      rw [ha] at this
      linarith
    have hlow : -a ≤ nearest (p - a) := le_nearest hrep.neg (by linarith)
    have hhigh : nearest (p - a) ≤ 2 * -a := nearest_le hrep.neg.two_mul (by linarith)
    have hsum := (nearest_representable (p - a)).sub_of_le hrep.neg (by linarith) (by linarith)
    rw [sub_neg_eq_add, add_comm] at hsum
    rw [nearest_of_representable hsum] at h
    rw [show p - a = nearest (p - a) by linarith]
    exact nearest_representable _
  rcases le_total (-q) p with hqp | hqp
  · have habs : |q| ≤ |p| := by rwa [abs_of_neg hneg, abs_of_nonneg hp0]
    rw [← neg_sub, ← ha]
    exact (representable_nearest_add_sub hp hq habs).neg
  · have hsum := hp.sub_of_le hq.neg (by linarith) (by linarith)
    rw [sub_neg_eq_add] at hsum
    rw [← ha, nearest_of_representable hsum, sub_add_cancel_left]
    exact hq.neg

end TileCompositor.Binary32
