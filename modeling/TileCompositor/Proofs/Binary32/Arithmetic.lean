import TileCompositor.Proofs.Binary32.Unpacked
/-!
# Arithmetic on unpacked floats

Sum, difference, product and quotient of finite unpacked floats are the exact
results rounded by `nearest`; the comparison of canonical floats is that of
the numbers.
-/
namespace TileCompositor.Binary32
open Float.Model (Format UnpackedFloat totalExponent)
open Float.Model.UnpackedFloat

/-- A finite float is a zero or has digits. -/
theorem isFinite_cases {u : UnpackedFloat} (h : u.isFinite = true) :
    (∃ s, u = .zero s) ∨ ∃ s m e hm, u = .finite s m e hm := by
  cases u with
  | infinity s => simp [UnpackedFloat.isFinite] at h
  | notANumber => simp [UnpackedFloat.isFinite] at h
  | zero s => exact .inl ⟨s, rfl⟩
  | finite s m e hm => exact .inr ⟨s, m, e, hm, rfl⟩

/-- A canonical float is its own rounding. -/
theorem Canonical.representable {u : UnpackedFloat} (h : Canonical u) :
    Representable (valueOf u) := by
  have h0 : Representable 0 := ⟨0, 0, by norm_num, by norm_num, by norm_num⟩
  cases u with
  | finite s m e hm =>
    obtain ⟨hlt, hmin, -⟩ := h
    have hpos : Representable (m * 2 ^ e) :=
      ⟨m, e, by rw [Nat.abs_cast]; exact_mod_cast hlt.le, hmin, by simp⟩
    cases s
    · simpa [valueOf] using hpos.neg
    · simpa [valueOf] using hpos
  | _ => exact h0

theorem Canonical.rounded {u : UnpackedFloat} (h : Canonical u) (hf : u.isFinite = true) :
    Rounded u (valueOf u) :=
  ⟨h, hf, (nearest_of_representable h.representable).symm⟩

/-- Lowering the exponent keeps the number. -/
theorem shiftLeft_mul_zpow (m : ℕ) {e f : ℤ} (h : f ≤ e) :
    ((m <<< (e - f).toNat : ℕ) : ℚ) * 2 ^ f = m * 2 ^ e := by
  obtain ⟨k, rfl⟩ : ∃ k : ℕ, e = f + k := ⟨(e - f).toNat, by omega⟩
  have hk : (f + k - f).toNat = k := by omega
  rw [hk, Nat.shiftLeft_eq, zpow_add₀ (by norm_num), zpow_natCast]
  push_cast
  ring

theorem decreaseExponent_value (s : Sign) (m : ℕ) {e f : ℤ} (h : f ≤ e) :
    ((s.apply ((decreaseExponent m e f).1 : ℤ) : ℤ) : ℚ) * 2 ^ f = signValue s * (m * 2 ^ e) := by
  rw [apply_eq, decreaseExponent, mul_assoc, Int.cast_natCast, shiftLeft_mul_zpow m h]

theorem add_rounded {u v : UnpackedFloat} (hu : Canonical u) (hv : Canonical v)
    (hfu : u.isFinite = true) (hfv : v.isFinite = true) :
    Rounded (UnpackedFloat.add Format.binary32 u v) (valueOf u + valueOf v) := by
  obtain ⟨s, rfl⟩ | ⟨s, m, e, hm, rfl⟩ := isFinite_cases hfu <;>
    obtain ⟨s', rfl⟩ | ⟨s', m', e', hm', rfl⟩ := isFinite_cases hfv
  · have h : valueOf (.zero s) + valueOf (.zero s') = 0 := add_zero 0
    rw [h, UnpackedFloat.add]
    split <;> exact ⟨trivial, rfl, nearest_zero.symm⟩
  · have h : valueOf (.zero s) + valueOf (.finite s' m' e' hm') =
        valueOf (.finite s' m' e' hm') := zero_add _
    rw [h]
    exact hv.rounded rfl
  · have h : valueOf (.finite s m e hm) + valueOf (.zero s') =
        valueOf (.finite s m e hm) := add_zero _
    rw [h]
    exact hu.rounded rfl
  · have h := normalize_rounded (s.apply (decreaseExponent m e (min e e')).1 +
      s'.apply (decreaseExponent m' e' (min e e')).1) (min e e') .positive
    push_cast at h
    rw [add_mul, decreaseExponent_value s m (min_le_left e e'),
      decreaseExponent_value s' m' (min_le_right e e')] at h
    exact h

theorem sub_rounded {u v : UnpackedFloat} (hu : Canonical u) (hv : Canonical v)
    (hfu : u.isFinite = true) (hfv : v.isFinite = true) :
    Rounded (UnpackedFloat.sub Format.binary32 u v) (valueOf u - valueOf v) := by
  obtain ⟨s, rfl⟩ | ⟨s, m, e, hm, rfl⟩ := isFinite_cases hfu <;>
    obtain ⟨s', rfl⟩ | ⟨s', m', e', hm', rfl⟩ := isFinite_cases hfv
  · have h : valueOf (.zero s) - valueOf (.zero s') = 0 := sub_zero 0
    rw [h, UnpackedFloat.sub]
    split <;> exact ⟨trivial, rfl, nearest_zero.symm⟩
  · have h : valueOf (.zero s) - valueOf (.finite s' m' e' hm') =
        valueOf (.finite (-s') m' e' hm') := by
      simp [valueOf, signValue_neg]
    have hc : Canonical (.finite (-s') m' e' hm') := hv
    rw [h]
    exact hc.rounded rfl
  · have h : valueOf (.finite s m e hm) - valueOf (.zero s') =
        valueOf (.finite s m e hm) := sub_zero _
    rw [h]
    exact hu.rounded rfl
  · have h := normalize_rounded (s.apply (decreaseExponent m e (min e e')).1 -
      s'.apply (decreaseExponent m' e' (min e e')).1) (min e e') .positive
    push_cast at h
    rw [sub_mul, decreaseExponent_value s m (min_le_left e e'),
      decreaseExponent_value s' m' (min_le_right e e')] at h
    exact h

theorem neg_rounded {u : UnpackedFloat} (hu : Canonical u) (hf : u.isFinite = true) :
    Rounded u.neg (-valueOf u) := by
  obtain ⟨s, rfl⟩ | ⟨s, m, e, hm, rfl⟩ := isFinite_cases hf
  · exact ⟨trivial, rfl, by simp [valueOf, UnpackedFloat.neg]⟩
  · have h : -valueOf (.finite s m e hm) = valueOf (.finite (-s) m e hm) := by
      rw [valueOf, valueOf, signValue_neg, neg_mul]
    have hc : Canonical (.finite (-s) m e hm) := hu
    rw [h]
    exact hc.rounded rfl

theorem abs_rounded {u : UnpackedFloat} (hu : Canonical u) (hf : u.isFinite = true) :
    Rounded u.abs |valueOf u| := by
  obtain ⟨s, rfl⟩ | ⟨s, m, e, hm, rfl⟩ := isFinite_cases hf
  · exact ⟨trivial, rfl, by simp [valueOf, UnpackedFloat.abs]⟩
  · have hpos : (0 : ℚ) < m * 2 ^ e := mul_pos (by exact_mod_cast hm) (two_zpow_pos e)
    have h : |valueOf (.finite s m e hm)| = valueOf (.finite .positive m e hm) := by
      rw [valueOf, valueOf, abs_mul, abs_signValue, abs_of_pos hpos, signValue_positive]
    have hc : Canonical (.finite .positive m e hm) := hu
    rw [h]
    exact hc.rounded rfl

/-- The exponent of a product is not above that of its spacing. -/
theorem mul_exponent_le {m m' : ℕ} {e e' : ℤ} (hm : 0 < m) (hm' : 0 < m') (he : -149 ≤ e)
    (he' : -149 ≤ e') (hn : 2 ^ 23 ≤ m ∨ e = -149) (hn' : 2 ^ 23 ≤ m' ∨ e' = -149) :
    e + e' ≤ unitExponent (((m * m' : ℕ) : ℚ) * 2 ^ (e + e')) := by
  have hp : 0 < m * m' := Nat.mul_pos hm hm'
  have hlog := log_mul_two_zpow (q := ((m * m' : ℕ) : ℚ)) hp le_rfl (lt_add_one _) (e + e')
  have hpos : (0 : ℚ) < ((m * m' : ℕ) : ℚ) * 2 ^ (e + e') :=
    mul_pos (by exact_mod_cast hp) (two_zpow_pos _)
  rw [unitExponent, abs_of_pos hpos, hlog]
  by_cases hbig : 2 ^ 23 ≤ m * m'
  · have := (Nat.le_log2 hp.ne').mpr hbig
    omega
  · -- both whole numbers are short, so both exponents are the least one
    have h1 : ¬ 2 ^ 23 ≤ m := fun h => hbig (h.trans (Nat.le_mul_of_pos_right m hm'))
    have h2 : ¬ 2 ^ 23 ≤ m' := fun h => hbig (h.trans (Nat.le_mul_of_pos_left m' hm))
    have := hn.resolve_left h1
    have := hn'.resolve_left h2
    omega

theorem mul_rounded {u v : UnpackedFloat} (hu : Canonical u) (hv : Canonical v)
    (hfu : u.isFinite = true) (hfv : v.isFinite = true) :
    Rounded (UnpackedFloat.mul Format.binary32 u v) (valueOf u * valueOf v) := by
  obtain ⟨s, rfl⟩ | ⟨s, m, e, hm, rfl⟩ := isFinite_cases hfu <;>
    obtain ⟨s', rfl⟩ | ⟨s', m', e', hm', rfl⟩ := isFinite_cases hfv
  · exact ⟨trivial, rfl, by simp [valueOf, UnpackedFloat.mul]⟩
  · exact ⟨trivial, rfl, by simp [valueOf, UnpackedFloat.mul]⟩
  · exact ⟨trivial, rfl, by simp [valueOf, UnpackedFloat.mul]⟩
  · have hexp := mul_exponent_le hm hm' hu.2.1 hv.2.1 hu.2.2 hv.2.2
    have hpos : (0 : ℚ) < ((m * m' : ℕ) : ℚ) := by exact_mod_cast Nat.mul_pos hm hm'
    have h := roundWithAccuracy_rounded (s * s') hpos (residue_exact (m * m')) hexp
    have hval : valueOf (.finite s m e hm) * valueOf (.finite s' m' e' hm') =
        signValue (s * s') * (((m * m' : ℕ) : ℚ) * 2 ^ (e + e')) := by
      rw [valueOf, valueOf, signValue_mul, zpow_add₀ (by norm_num)]
      push_cast
      ring
    rw [hval]
    exact h

/-- The quotient of whole numbers, cut to a whole number, with what is left. -/
theorem residue_fraction (a : ℕ) {b : ℕ} (hb : 0 < b) :
    Residue (.ofMantissaAndAccuracy (a / b) (accuracyOfFraction (a % b) b)) ((a : ℚ) / b) := by
  have hb' : (0 : ℚ) < b := by exact_mod_cast hb
  have hfloor : ⌊(a : ℚ) / b⌋ = (a / b : ℕ) := by exact_mod_cast Rat.floor_natCast_div_natCast a b
  have hfract : Int.fract ((a : ℚ) / b) = (a % b : ℕ) / b := by
    have h1 := Int.floor_add_fract ((a : ℚ) / b)
    have h2 : ((a / b : ℕ) : ℚ) * b + (a % b : ℕ) = a := by
      exact_mod_cast Nat.div_add_mod' a b
    rw [hfloor, Int.cast_natCast] at h1
    rw [eq_div_iff hb'.ne']
    have h3 : ((a : ℚ) / b) * b = a := by field_simp
    nlinarith
  have hle : (1 : ℚ) ≤ 2 * ((a % b : ℕ) / b) ↔ b ≤ 2 * (a % b) := by
    rw [← mul_div_assoc, le_div_iff₀ hb', one_mul]
    exact_mod_cast Iff.rfl
  have heq : 2 * (((a % b : ℕ) : ℚ) / b) = 1 ↔ 2 * (a % b) = b := by
    rw [← mul_div_assoc, div_eq_iff hb'.ne', one_mul]
    exact_mod_cast Iff.rfl
  have hzero : (((a % b : ℕ) : ℚ) / b) = 0 ↔ a % b = 0 := by
    rw [div_eq_zero_iff]
    simp [hb'.ne']
  refine ⟨?_, ?_, ?_⟩
  · rw [hfloor, accuracyOfFraction]
    split
    · rfl
    · cases compare (2 * (a % b)) b <;> rfl
  · rw [hfract, hle, accuracyOfFraction]
    split
    · next h0 => simp [ExtendedMantissa.ofMantissaAndAccuracy, h0, hb.ne']
    · rcases Nat.lt_trichotomy (2 * (a % b)) b with h | h | h
      · simp [Nat.compare_eq_lt.mpr h, ExtendedMantissa.ofMantissaAndAccuracy, h]
      · simp [ExtendedMantissa.ofMantissaAndAccuracy, h]
      · simp [Nat.compare_eq_gt.mpr h, ExtendedMantissa.ofMantissaAndAccuracy, h.le]
  · rw [hfract, ne_eq, ne_eq, heq, hzero, accuracyOfFraction]
    split
    · next h0 => simp [ExtendedMantissa.ofMantissaAndAccuracy, h0]
    · next h0 =>
      rcases Nat.lt_trichotomy (2 * (a % b)) b with h | h | h
      · simp [Nat.compare_eq_lt.mpr h, ExtendedMantissa.ofMantissaAndAccuracy, h.ne, h0]
      · simp [ExtendedMantissa.ofMantissaAndAccuracy, h]
      · simp [Nat.compare_eq_gt.mpr h, ExtendedMantissa.ofMantissaAndAccuracy, h.ne', h0]

theorem div_rounded {u v : UnpackedFloat} (hfu : u.isFinite = true) (hfv : v.isFinite = true)
    (h0 : valueOf v ≠ 0) :
    Rounded (UnpackedFloat.div Format.binary32 u v) (valueOf u / valueOf v) := by
  obtain ⟨s', rfl⟩ | ⟨s', m', e', hm', rfl⟩ := isFinite_cases hfv
  · exact absurd rfl h0
  obtain ⟨s, rfl⟩ | ⟨s, m, e, hm, rfl⟩ := isFinite_cases hfu
  · exact ⟨trivial, rfl, by simp [valueOf, UnpackedFloat.div]⟩
  have hpos : (0 : ℚ) < m := by exact_mod_cast hm
  have hpos' : (0 : ℚ) < m' := by exact_mod_cast hm'
  generalize ht : min (e - e')
    (Format.binary32.targetExponent (totalExponent m e - totalExponent m' e')) = t
  obtain ⟨k, hk⟩ : ∃ k : ℕ, e - e' = t + k := ⟨(e - e' - t).toNat, by omega⟩
  have hquot : ((m <<< k : ℕ) : ℚ) / m' * 2 ^ t = (m * 2 ^ e) / (m' * 2 ^ e') := by
    have he : e = t + k + e' := by omega
    have := (two_zpow_pos e').ne'
    rw [he, Nat.shiftLeft_eq, zpow_add₀ (by norm_num), zpow_add₀ (by norm_num), zpow_natCast]
    push_cast
    field_simp
  have hv : 0 < (m * 2 ^ e) / (m' * 2 ^ e' : ℚ) :=
    div_pos (mul_pos hpos (two_zpow_pos e)) (mul_pos hpos' (two_zpow_pos e'))
  have hlog : (m.log2 : ℤ) + e - (m'.log2 + 1 + e') ≤
      Int.log 2 ((m * 2 ^ e) / (m' * 2 ^ e' : ℚ)) := by
    have h1 : (2 : ℚ) ^ m.log2 ≤ m := by exact_mod_cast Nat.log2_self_le hm.ne'
    have h2 : (m' : ℚ) ≤ 2 ^ (m'.log2 + 1) := by exact_mod_cast (Nat.lt_log2_self (n := m')).le
    rw [← Int.zpow_le_iff_le_log (b := 2) (by norm_num) hv]
    push_cast
    rw [zpow_sub₀ (by norm_num), zpow_add₀ (by norm_num), zpow_add₀ (by norm_num), zpow_natCast]
    apply div_le_div₀ (mul_pos hpos (two_zpow_pos e)).le
    · exact mul_le_mul_of_nonneg_right h1 (two_zpow_pos e).le
    · exact mul_pos hpos' (two_zpow_pos e')
    · exact mul_le_mul_of_nonneg_right (by exact_mod_cast h2) (two_zpow_pos e').le
  have hexp : t ≤ unitExponent (((m <<< k : ℕ) : ℚ) / m' * 2 ^ t) := by
    rw [hquot, unitExponent, abs_of_pos hv]
    rw [targetExponent_eq, totalExponent, totalExponent] at ht
    omega
  have hq : 0 < ((m <<< k : ℕ) : ℚ) / m' := by
    rw [Nat.shiftLeft_eq]
    push_cast
    positivity
  have h := roundWithAccuracy_rounded (s / s') hq (residue_fraction (m <<< k) hm') hexp
  have hval : valueOf (.finite s m e hm) / valueOf (.finite s' m' e' hm') =
      signValue (s / s') * (((m <<< k : ℕ) : ℚ) / m' * 2 ^ t) := by
    rw [hquot, valueOf, valueOf, signValue_div]
    cases s <;> cases s' <;> simp [div_neg, neg_div]
  have hshift : (e - e' - t).toNat = k := by omega
  rw [hval]
  simpa only [UnpackedFloat.div, divCore, ht, hshift] using h

/-! ## Order -/

/-- The longer exponent decides, then the whole number. -/
theorem compare_magnitude {m m' : ℕ} {e e' : ℤ} (hm : m < 2 ^ 24) (hm' : m' < 2 ^ 24)
    (he : -149 ≤ e) (he' : -149 ≤ e') (hn : 2 ^ 23 ≤ m ∨ e = -149) (hn' : 2 ^ 23 ≤ m' ∨ e' = -149) :
    (compare e e').then (compare m m') = compare ((m : ℚ) * 2 ^ e) (m' * 2 ^ e') := by
  have step {a b : ℕ} {f g : ℤ} (ha : a < 2 ^ 24) (hb : 2 ^ 23 ≤ b) (h : f < g) :
      (a : ℚ) * 2 ^ f < b * 2 ^ g := by
    calc (a : ℚ) * 2 ^ f < 2 ^ 24 * 2 ^ f :=
          mul_lt_mul_of_pos_right (by exact_mod_cast ha) (two_zpow_pos f)
      _ = 2 ^ 23 * 2 ^ (f + 1) := by
          rw [zpow_add₀ (by norm_num)]
          ring
      _ ≤ 2 ^ 23 * 2 ^ g :=
        mul_le_mul_of_nonneg_left (zpow_le_zpow_right₀ (by norm_num) (by omega)) (by norm_num)
      _ ≤ b * 2 ^ g := mul_le_mul_of_nonneg_right (by exact_mod_cast hb) (two_zpow_pos g).le
  rcases lt_trichotomy e e' with h | rfl | h
  · rw [compare_lt_iff_lt.mpr h, compare_lt_iff_lt.mpr (step hm (hn'.resolve_right (by omega)) h)]
    rfl
  · rcases lt_trichotomy m m' with h | rfl | h
    · rw [compare_eq_iff_eq.mpr rfl, compare_lt_iff_lt.mpr h, compare_lt_iff_lt.mpr
        (mul_lt_mul_of_pos_right (by exact_mod_cast h) (two_zpow_pos e))]
      rfl
    · simp
    · rw [compare_eq_iff_eq.mpr rfl, compare_gt_iff_gt.mpr h, compare_gt_iff_gt.mpr
        (mul_lt_mul_of_pos_right (by exact_mod_cast h) (two_zpow_pos e))]
      rfl
  · rw [compare_gt_iff_gt.mpr h, compare_gt_iff_gt.mpr (step hm' (hn.resolve_right (by omega)) h)]
    rfl

/-- Finite canonical floats compare as their numbers do. -/
theorem compare_eq {u v : UnpackedFloat} (hu : Canonical u) (hv : Canonical v)
    (hfu : u.isFinite = true) (hfv : v.isFinite = true) :
    UnpackedFloat.compare u v = some (compare (valueOf u) (valueOf v)) := by
  have pos {m : ℕ} (e : ℤ) (hm : 0 < m) : (0 : ℚ) < m * 2 ^ e :=
    mul_pos (by exact_mod_cast hm) (two_zpow_pos e)
  obtain ⟨s, rfl⟩ | ⟨s, m, e, hm, rfl⟩ := isFinite_cases hfu <;>
    obtain ⟨s', rfl⟩ | ⟨s', m', e', hm', rfl⟩ := isFinite_cases hfv
  · simp [UnpackedFloat.compare, valueOf]
  · have := pos e' hm'
    cases s' <;> simp only [UnpackedFloat.compare, valueOf, signValue, Option.some.injEq] <;> symm
    · rw [compare_gt_iff_gt]
      linarith
    · rw [compare_lt_iff_lt]
      linarith
  · have := pos e hm
    cases s <;> simp only [UnpackedFloat.compare, valueOf, signValue, Option.some.injEq] <;> symm
    · rw [compare_lt_iff_lt]
      linarith
    · rw [compare_gt_iff_gt]
      linarith
  · have h := pos e hm
    have h' := pos e' hm'
    have hc := compare_magnitude hu.1 hv.1 hu.2.1 hv.2.1 hu.2.2 hv.2.2
    cases s <;> cases s' <;>
      simp only [UnpackedFloat.compare, valueOf, signValue, Option.some.injEq, hc]
    · rw [neg_one_mul, neg_one_mul]
      rcases lt_trichotomy ((m : ℚ) * 2 ^ e) (m' * 2 ^ e') with h | h | h
      · rw [compare_lt_iff_lt.mpr h, compare_gt_iff_gt.mpr (neg_lt_neg h)]
        rfl
      · rw [h, compare_eq_iff_eq.mpr rfl, compare_eq_iff_eq.mpr rfl]
        rfl
      · rw [compare_gt_iff_gt.mpr h, compare_lt_iff_lt.mpr (neg_lt_neg h)]
        rfl
    · symm
      rw [compare_lt_iff_lt]
      linarith
    · symm
      rw [compare_gt_iff_gt]
      linarith
    · rw [one_mul, one_mul]

end TileCompositor.Binary32
