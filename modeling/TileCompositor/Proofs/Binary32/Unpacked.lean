import TileCompositor.Proofs.Binary32.Rounding
/-!
# The rounding of unpacked floats is `nearest`

An unpacked float is a sign, a whole number and an exponent. Arithmetic on
unpacked floats cuts bits off the whole number and keeps of the rest a round
bit and a sticky bit; `Residue` says which number the three stand for. From
it follows that the result has the value `nearest` gives, and the canonical
form in which binary32 values are packed.

Results:
* `roundWithAccuracy_rounded`, `normalize_rounded`: the two ways in which the
  arithmetic rounds.
* `unpack_pack`: packing keeps canonical floats, but for those whose exponent
  is too large, which become infinite.
* `canonical_unpack`: what is unpacked is canonical.
-/
namespace TileCompositor.Binary32
open Float.Model (Format UnpackedFloat totalExponent)
open Float.Model.UnpackedFloat

/-- 1 or -1. -/
def signValue : Sign → ℚ
  | .negative => -1
  | .positive => 1

/-- The number that an unpacked float stands for; 0 if it is not finite. -/
def valueOf : UnpackedFloat → ℚ
  | .finite s m e _ => signValue s * (m * 2 ^ e)
  | _ => 0

/-- The form of packed values: 24 bits unless the exponent is the least one. -/
def Canonical : UnpackedFloat → Prop
  | .finite _ m e _ => m < 2 ^ 24 ∧ -149 ≤ e ∧ (2 ^ 23 ≤ m ∨ e = -149)
  | _ => True

/-- `u` is the result of rounding `q`, before overflow is looked at. -/
structure Rounded (u : UnpackedFloat) (q : ℚ) : Prop where
  canonical : Canonical u
  finite : u.isFinite = true
  value : valueOf u = nearest q

@[simp] theorem signValue_positive : signValue .positive = 1 := rfl

@[simp] theorem signValue_negative : signValue .negative = -1 := rfl

theorem signValue_mul : ∀ s s' : Sign, signValue (s * s') = signValue s * signValue s'
  | .negative, .negative => (by norm_num : (1 : ℚ) = -1 * -1)
  | .negative, .positive => (by norm_num : (-1 : ℚ) = -1 * 1)
  | .positive, .negative => (by norm_num : (-1 : ℚ) = 1 * -1)
  | .positive, .positive => (by norm_num : (1 : ℚ) = 1 * 1)

theorem signValue_div : ∀ s s' : Sign, signValue (s / s') = signValue s * signValue s'
  | .negative, .negative => signValue_mul .negative .negative
  | .negative, .positive => signValue_mul .negative .positive
  | .positive, .negative => signValue_mul .positive .negative
  | .positive, .positive => signValue_mul .positive .positive

theorem signValue_neg : ∀ s : Sign, signValue (-s) = -signValue s
  | .negative => (by norm_num : (1 : ℚ) = - -1)
  | .positive => rfl

theorem abs_signValue (s : Sign) : |signValue s| = 1 := by
  cases s <;> norm_num

theorem apply_eq (s : Sign) (n : ℤ) : ((s.apply n : ℤ) : ℚ) = signValue s * n := by
  cases s <;> simp [Sign.apply]

theorem nearest_signValue_mul (s : Sign) (q : ℚ) :
    nearest (signValue s * q) = signValue s * nearest q := by
  cases s
  · simp [nearest_neg]
  · simp

theorem targetExponent_eq (t : ℤ) : Format.binary32.targetExponent t = max (t - 24) (-149) := rfl

/-! ## Residual bits -/

/-- The whole number and the two residual bits of `em` are those of `q`. -/
structure Residue (em : ExtendedMantissa) (q : ℚ) : Prop where
  floor : ⌊q⌋ = em.mantissa
  round : em.roundBit = true ↔ 1 ≤ 2 * Int.fract q
  sticky : em.stickyBit = true ↔ Int.fract q ≠ 0 ∧ 2 * Int.fract q ≠ 1

theorem residue_exact (m : ℕ) : Residue (.ofMantissaAndAccuracy m .exact) m where
  floor := by simp [ExtendedMantissa.ofMantissaAndAccuracy]
  round := by simp [ExtendedMantissa.ofMantissaAndAccuracy]
  sticky := by simp [ExtendedMantissa.ofMantissaAndAccuracy]

/-- The parts of one half of a number. -/
theorem floor_fract_half {q : ℚ} {m : ℕ} (h : ⌊q⌋ = m) :
    ⌊q / 2⌋ = (m / 2 : ℕ) ∧ Int.fract (q / 2) = ((m % 2 : ℕ) + Int.fract q) / 2 := by
  have hq := Int.floor_add_fract q
  have h0 := Int.fract_nonneg q
  have h1 := Int.fract_lt_one q
  have hm : ((m / 2 : ℕ) : ℚ) * 2 + (m % 2 : ℕ) = m := by
    exact_mod_cast (by omega : m / 2 * 2 + m % 2 = m)
  have hr : ((m % 2 : ℕ) : ℚ) ≤ 1 := by exact_mod_cast (by omega : m % 2 ≤ 1)
  have hr0 : (0 : ℚ) ≤ ((m % 2 : ℕ) : ℚ) := by positivity
  rw [h, Int.cast_natCast] at hq
  have hf : ⌊q / 2⌋ = (m / 2 : ℕ) := by
    rw [Int.floor_eq_iff, Int.cast_natCast]
    constructor <;> linarith
  refine ⟨hf, ?_⟩
  have := Int.floor_add_fract (q / 2)
  rw [hf, Int.cast_natCast] at this
  linarith

theorem Residue.shiftRightOne {em : ExtendedMantissa} {q : ℚ} (h : Residue em q) :
    Residue em.shiftRightOne (q / 2) := by
  obtain ⟨hf, hr, hs⟩ := h
  obtain ⟨hf', hr'⟩ := floor_fract_half hf
  have h0 := Int.fract_nonneg q
  have h1 := Int.fract_lt_one q
  have hm : em.mantissa % 2 = 0 ∨ em.mantissa % 2 = 1 := by omega
  refine ⟨hf', ?_, ?_⟩
  · rw [hr', ExtendedMantissa.shiftRightOne]
    rcases hm with hm | hm <;> simp only [hm] <;> norm_num
    · linarith
    · linarith
  · -- the bits behind the new round bit are all those of the old fraction
    have hany : (em.roundBit || em.stickyBit) = true ↔ Int.fract q ≠ 0 := by
      rw [Bool.or_eq_true, hr, hs]
      constructor
      · rintro (h | h)
        · intro h0'
          rw [h0'] at h
          norm_num at h
        · exact h.1
      · intro hne
        by_cases hh : 2 * Int.fract q = 1
        · exact .inl hh.ge
        · exact .inr ⟨hne, hh⟩
    rw [hr', ExtendedMantissa.shiftRightOne, hany]
    rcases hm with hm | hm <;> simp only [hm] <;> push_cast
    · constructor
      · intro hne
        exact ⟨by simpa using hne, fun h => by linarith⟩
      · rintro ⟨h, -⟩ hz
        exact h (by rw [hz]; norm_num)
    · constructor
      · intro hne
        refine ⟨by linarith, fun h => hne (by linarith)⟩
      · rintro ⟨-, h⟩ hz
        exact h (by rw [hz]; norm_num)

theorem Residue.shiftRight {em : ExtendedMantissa} {q : ℚ} (h : Residue em q) (n : ℕ) :
    Residue (em >>> n) (q / 2 ^ n) := by
  induction n with
  | zero =>
    rw [pow_zero, div_one]
    exact h
  | succ n ih =>
    rw [pow_succ, ← div_div]
    exact ih.shiftRightOne

/-- The bits round as the number does. -/
theorem Residue.roundedMantissa {em : ExtendedMantissa} {q : ℚ} (h : Residue em q) :
    (em.roundedMantissa : ℤ) = nearestInt q := by
  obtain ⟨hf, hr, hs⟩ := h
  rcases em with ⟨m, round, sticky⟩
  have h0 := Int.fract_nonneg q
  simp only at hf hr hs
  unfold nearestInt
  rw [hf]
  cases round
  · have hlt : 2 * Int.fract q < 1 := by simpa using hr
    rw [if_pos hlt]
    cases sticky <;> rfl
  · have hge : 1 ≤ 2 * Int.fract q := hr.mp rfl
    rw [if_neg hge.not_gt]
    cases sticky
    · have heq : 2 * Int.fract q = 1 := by
        by_contra hne
        have hnz : Int.fract q ≠ 0 := fun hz => by
          rw [hz] at hge
          norm_num at hge
        simpa using hs.mpr ⟨hnz, hne⟩
      rw [if_neg heq.le.not_gt]
      exact_mod_cast rfl
    · have hgt : 1 < 2 * Int.fract q := lt_of_le_of_ne hge (Ne.symm (hs.mp rfl).2)
      rw [if_pos hgt]
      rfl

/-! ## Rounding to 24 bits -/

theorem shift_eq {m : ℕ} {e : ℤ} {acc : Accuracy} {n : ℕ}
    (hn : (Format.binary32.targetExponent (totalExponent m e) - e).toNat = n) :
    shiftToTargetExponent Format.binary32 m e acc =
      (ExtendedMantissa.ofMantissaAndAccuracy m acc >>> n, e + n) := by
  simp only [shiftToTargetExponent, shiftToExponent, hn]

/-- Nothing is cut off a number that fits. -/
theorem shift_of_lt {n : ℕ} {e : ℤ} (hn : n < 2 ^ 24) (he : -149 ≤ e) :
    shiftToTargetExponent Format.binary32 n e .exact = (⟨n, false, false⟩, e) := by
  have hl : n.log2 ≤ 23 := by
    by_cases h0 : n = 0
    · simp [h0]
    · have := (Nat.log2_lt h0).mpr hn
      omega
  rw [shift_eq (n := 0) (by rw [targetExponent_eq, totalExponent]; omega)]
  simp [ExtendedMantissa.ofMantissaAndAccuracy, HShiftRight.hShiftRight, Nat.repeat]

/-- A number that rounding has made 25 bits long loses a zero. -/
theorem shift_of_carry {e : ℤ} (he : -149 ≤ e) :
    shiftToTargetExponent Format.binary32 (2 ^ 24) e .exact = (⟨2 ^ 23, false, false⟩, e + 1) := by
  rw [shift_eq (n := 1) (by rw [targetExponent_eq, totalExponent, Nat.log2_two_pow]; omega)]
  rfl

/-- Rounding, from the results of its two shifts. -/
theorem roundWithAccuracy_eq {s : Sign} {m : ℕ} {e e₁ e₂ : ℤ} {acc : Accuracy}
    {x y : ExtendedMantissa} (h₁ : shiftToTargetExponent Format.binary32 m e acc = (x, e₁))
    (h₂ : shiftToTargetExponent Format.binary32 x.roundedMantissa e₁ .exact = (y, e₂)) :
    roundWithAccuracy Format.binary32 s m e acc =
      if h : y.mantissa = 0 then .zero s else .finite s y.mantissa e₂ (Nat.pos_of_ne_zero h) := by
  obtain rfl : _ = x := congrArg Prod.fst h₁
  obtain rfl : _ = e₁ := congrArg Prod.snd h₁
  obtain rfl : _ = y := congrArg Prod.fst h₂
  obtain rfl : _ = e₂ := congrArg Prod.snd h₂
  rfl

/-- The leading digit of a number is that of its whole part. -/
theorem log_mul_two_zpow {q : ℚ} {m : ℕ} (hm : 0 < m) (hlo : m ≤ q) (hhi : q < m + 1) (e : ℤ) :
    Int.log 2 (q * 2 ^ e) = m.log2 + e := by
  have hpos : 0 < q * 2 ^ e :=
    mul_pos ((by exact_mod_cast hm : (0 : ℚ) < m).trans_le hlo) (two_zpow_pos e)
  apply le_antisymm
  · have h1 : (m : ℚ) + 1 ≤ 2 ^ (m.log2 + 1) := by exact_mod_cast Nat.lt_log2_self (n := m)
    have h2 : q * 2 ^ e < 2 ^ ((m.log2 + 1 : ℤ) + e) := by
      rw [zpow_add₀ (by norm_num)]
      exact mul_lt_mul_of_pos_right (hhi.trans_le (by exact_mod_cast h1)) (two_zpow_pos e)
    have := (Int.lt_zpow_iff_log_lt (b := 2) (by norm_num) hpos).mp (by exact_mod_cast h2)
    omega
  · have h1 : (2 : ℚ) ^ m.log2 ≤ m := by exact_mod_cast Nat.log2_self_le hm.ne'
    rw [← Int.zpow_le_iff_le_log (b := 2) (by norm_num) hpos]
    push_cast
    rw [zpow_add₀ (by norm_num), zpow_natCast]
    exact mul_le_mul_of_nonneg_right (h1.trans hlo) (two_zpow_pos e).le

/-- The exponent to which a number is cut is that of its spacing. -/
theorem targetExponent_floor {q : ℚ} {m : ℕ} {e : ℤ} (hq : 0 < q) (hlo : m ≤ q) (hhi : q < m + 1)
    (he : 0 < m ∨ e ≤ -149) :
    Format.binary32.targetExponent (totalExponent m e) = unitExponent (q * 2 ^ e) := by
  have hpos : 0 < q * 2 ^ e := mul_pos hq (two_zpow_pos e)
  rw [targetExponent_eq, totalExponent, unitExponent, abs_of_pos hpos]
  rcases Nat.eq_zero_or_pos m with rfl | hm
  · have hlt : q * 2 ^ e < 2 ^ e := by
      push_cast at hhi
      nlinarith [two_zpow_pos e]
    have hlog := (Int.lt_zpow_iff_log_lt (b := 2) (by norm_num) hpos).mp (by exact_mod_cast hlt)
    rw [Nat.log2_zero]
    omega
  · rw [log_mul_two_zpow hm hlo hhi]
    omega

theorem Residue.floor_eq {m : ℕ} {acc : Accuracy} {q : ℚ}
    (h : Residue (.ofMantissaAndAccuracy m acc) q) : ⌊q⌋ = m := by
  rw [h.floor]
  cases acc with
  | exact => rfl
  | inexact o => cases o <;> rfl

/-- Only with the least exponent can a significand be zero before rounding. -/
theorem pos_or_le_of_le_unitExponent {m : ℕ} {e : ℤ} {q : ℚ} (hq : 0 < q) (hhi : q < m + 1)
    (he : e ≤ unitExponent (q * 2 ^ e)) : 0 < m ∨ e ≤ -149 := by
  refine or_iff_not_imp_left.mpr fun hm => ?_
  have hlt : |q * 2 ^ e| < 2 ^ (e - 23 + 23) := by
    rw [abs_of_pos (mul_pos hq (two_zpow_pos e)), sub_add_cancel]
    have : q < 1 := by simpa [show m = 0 by omega] using hhi
    nlinarith [two_zpow_pos e]
  by_contra hlt'
  have := unitExponent_le (mul_pos hq (two_zpow_pos e)).ne' (e := e - 1) (by omega)
    (hlt.trans_le (zpow_le_zpow_right₀ (by norm_num) (by omega)))
  omega

section Significand
variable {r : ℕ} {v : ℚ} (hr : (r : ℤ) = nearestInt (v / unit v))
include hr

/-- A rounded significand has 24 bits, or is the power above them. -/
theorem significand_le : r ≤ 2 ^ 24 := by
  have := abs_nearestInt_unit_le v
  rw [← hr] at this
  exact_mod_cast (le_abs_self _).trans this

/-- It has no fewer bits, except with the least exponent. -/
theorem le_significand (hv : 0 < v) : 2 ^ 23 ≤ r ∨ unitExponent v = -149 := by
  refine or_iff_not_imp_right.mpr fun hne => ?_
  have h1 := unit_le_abs hv.ne' hne
  rw [abs_of_pos hv, ← le_div_iff₀ (unit_pos v)] at h1
  have h2 := nearestInt_mono (p := ((2 ^ 23 : ℤ) : ℚ)) (by exact_mod_cast h1)
  rw [nearestInt_intCast, ← hr] at h2
  exact_mod_cast h2

end Significand

/-- What a shift to the exponent of the spacing leaves, rounded, is the
significand of the nearest value. -/
theorem roundedMantissa_shift {m n : ℕ} {e : ℤ} {acc : Accuracy} {q v : ℚ}
    (h : Residue (.ofMantissaAndAccuracy m acc) q) (hv : q * 2 ^ e = v)
    (hn : unitExponent v = e + n) :
    ((ExtendedMantissa.ofMantissaAndAccuracy m acc >>> n).roundedMantissa : ℤ) =
      nearestInt (v / unit v) := by
  have hquot : q / 2 ^ n = v / unit v := by
    have he0 := (two_zpow_pos e).ne'
    have hn0 : (2 : ℚ) ^ n ≠ 0 := by positivity
    rw [unit, hn, zpow_add₀ (by norm_num), zpow_natCast, ← hv, div_eq_div_iff hn0 (by positivity)]
    ring
  rw [← hquot]
  exact (h.shiftRight n).roundedMantissa

/-- Rounding a whole number with residual bits rounds the number that they
stand for. -/
theorem roundWithAccuracy_rounded (s : Sign) {m : ℕ} {e : ℤ} {acc : Accuracy} {q : ℚ} (hq : 0 < q)
    (h : Residue (.ofMantissaAndAccuracy m acc) q) (he : e ≤ unitExponent (q * 2 ^ e)) :
    Rounded (roundWithAccuracy Format.binary32 s m e acc) (signValue s * (q * 2 ^ e)) := by
  obtain ⟨hlo, hhi⟩ := Int.floor_eq_iff.mp h.floor_eq
  have ht := targetExponent_floor hq hlo hhi (pos_or_le_of_le_unitExponent hq hhi he)
  have hpos : 0 < q * 2 ^ e := mul_pos hq (two_zpow_pos e)
  generalize hv : q * 2 ^ e = v at *
  obtain ⟨n, hn⟩ : ∃ n : ℕ, unitExponent v = e + n := ⟨(unitExponent v - e).toNat, by omega⟩
  have hshift : shiftToTargetExponent Format.binary32 m e acc =
      (ExtendedMantissa.ofMantissaAndAccuracy m acc >>> n, unitExponent v) := by
    rw [shift_eq (n := n) (by rw [ht]; omega), hn]
  have hround := roundedMantissa_shift h hv hn
  generalize hr : (ExtendedMantissa.ofMantissaAndAccuracy m acc >>> n).roundedMantissa = r at hround
  have hval : nearest (signValue s * v) = signValue s * (r * 2 ^ unitExponent v) := by
    rw [nearest_signValue_mul, nearest, ← hround, unit]
    push_cast
    rfl
  have hmin := unitExponent_ge v
  rcases (significand_le hround).lt_or_eq with hlt | rfl
  · rw [roundWithAccuracy_eq hshift (by rw [hr, shift_of_lt hlt hmin])]
    by_cases h0 : r = 0
    · rw [dif_pos h0]
      refine ⟨trivial, rfl, ?_⟩
      rw [hval, h0, Nat.cast_zero, zero_mul, mul_zero]
      rfl
    · rw [dif_neg h0]
      exact ⟨⟨hlt, hmin, le_significand hround hpos⟩, rfl, hval.symm⟩
  · rw [roundWithAccuracy_eq hshift (by rw [hr, shift_of_carry hmin]), dif_neg (by norm_num)]
    refine ⟨⟨by norm_num, by omega, .inl le_rfl⟩, rfl, ?_⟩
    change signValue s * ((2 ^ 23 : ℕ) * 2 ^ (unitExponent v + 1)) = _
    rw [hval, zpow_add₀ (by norm_num)]
    push_cast
    ring

/-- Rounding a signed whole number times a power of two. -/
theorem normalize_rounded (n e : ℤ) (zeroSign : Sign) :
    Rounded (UnpackedFloat.normalize Format.binary32 n e zeroSign) (n * 2 ^ e) := by
  have hround (s : Sign) {m : ℕ} (hm : 0 < m) :
      Rounded (UnpackedFloat.round Format.binary32 s m e) (signValue s * (m * 2 ^ e)) := by
    -- the exponent is lowered to that of the spacing, so that nothing is lost before rounding
    have hpos : (0 : ℚ) < m := by exact_mod_cast hm
    generalize ht : Format.binary32.targetExponent (totalExponent m e) = t
    have hval : ((m <<< (e - t).toNat : ℕ) : ℚ) * 2 ^ (e - ((e - t).toNat : ℤ)) = m * 2 ^ e := by
      rw [Nat.shiftLeft_eq, zpow_sub₀ (by norm_num), zpow_natCast]
      push_cast
      field_simp
    have hle : e - ((e - t).toNat : ℤ) ≤ unitExponent (m * 2 ^ e) := by
      have : t = unitExponent (m * 2 ^ e) := by
        rw [← ht, targetExponent_floor hpos le_rfl (lt_add_one _) (.inl hm)]
      omega
    have := roundWithAccuracy_rounded s (e := e - ((e - t).toNat : ℤ))
      (q := ((m <<< (e - t).toNat : ℕ) : ℚ)) (by
        rw [Nat.shiftLeft_eq]
        push_cast
        positivity) (residue_exact _) (by rwa [hval])
    rw [hval] at this
    simpa only [UnpackedFloat.round, ht, decreaseExponent] using this
  rcases lt_trichotomy n 0 with hn | rfl | hn
  · have hc : compare n 0 = .lt := Int.compare_eq_lt.mpr hn
    have hcast : ((-n).toNat : ℚ) = -n := by exact_mod_cast (by omega : (((-n).toNat : ℕ) : ℤ) = -n)
    have := hround .negative (m := (-n).toNat) (by omega)
    rw [hcast] at this
    simpa [UnpackedFloat.normalize, hc] using this
  · refine ⟨trivial, rfl, ?_⟩
    rw [Int.cast_zero, zero_mul, nearest_zero]
    rfl
  · have hc : compare n 0 = .gt := Int.compare_eq_gt.mpr hn
    have hcast : (n.toNat : ℚ) = n := by exact_mod_cast (by omega : ((n.toNat : ℕ) : ℤ) = n)
    have := hround .positive (m := n.toNat) (by omega)
    rw [hcast] at this
    simpa [UnpackedFloat.normalize, hc] using this

/-! ## Packing -/

/-- What is left of a float after packing: an exponent too large for the format
gives an infinity. -/
def overflow : UnpackedFloat → UnpackedFloat
  | .finite s m e h => if 105 ≤ e then .infinity s else .finite s m e h
  | u => u

theorem toNat_implicit_append (m : BitVec 23) : (1#1 ++ m).toNat = 2 ^ 23 + m.toNat := by
  rw [BitVec.toNat_append, ← Nat.shiftLeft_add_eq_or_of_lt m.isLt]
  rfl

theorem toNat_pos_of_ne_zero {m : BitVec 23} (h : ¬ m = 0#23) : 0 < m.toNat :=
  Nat.pos_of_ne_zero fun h0 => h (BitVec.eq_of_toNat_eq h0)

theorem finite_congr {s : Sign} {m n : ℕ} {e f : ℤ} {hm : 0 < m} {hn : 0 < n} (h : m = n)
    (h' : e = f) :
    UnpackedFloat.finite s m e hm = .finite s n f hn := by
  subst h h'
  rfl

/-- Unpacking, from the three fields. -/
theorem unpack_eq {b : BitVec Format.binary32.numBits} {s : Sign} {e : BitVec 8} {m : BitVec 23}
    (hs : Sign.ofBitVec (unpackSign b) = s) (he : unpackExponent b = e) (hm : unpackMantissa b = m) :
    unpack Format.binary32 b =
      if e = -1#8 then (if m = 0#23 then .infinity s else .notANumber)
      else if e = 0#8 then
        if h : m = 0#23 then .zero s
        else .finite s m.toNat (-149) (toNat_pos_of_ne_zero h)
      else
        .finite s (2 ^ 23 + m.toNat) (e.toNat - 150) (Nat.add_pos_left (Nat.two_pow_pos 23) _) := by
  subst hs he hm
  unfold unpack
  dsimp only
  split_ifs with h1 h2 h3 h4
  · rfl
  · rfl
  · rfl
  · refine finite_congr rfl ?_
    rw [h3]
    rfl
  · exact finite_congr (toNat_implicit_append _) rfl

/-- Unpacking reads the three fields back. -/
theorem unpack_packComponents (s : Sign) (e : BitVec 8) (m : BitVec 23) :
    unpack Format.binary32 (packComponents Format.binary32 s e m) =
      if e = -1#8 then (if m = 0#23 then .infinity s else .notANumber)
      else if e = 0#8 then
        if h : m = 0#23 then .zero s
        else .finite s m.toNat (-149) (toNat_pos_of_ne_zero h)
      else
        .finite s (2 ^ 23 + m.toNat) (e.toNat - 150) (Nat.add_pos_left (Nat.two_pow_pos 23) _) :=
  unpack_eq (by rw [unpackSign_packComponents, Sign.ofBitVec_toBitVec])
    (unpackExponent_packComponents ..)
    (unpackMantissa_packComponents ..)

/-- A significand with its leading bit is packed without it. -/
theorem unpack_normal (s : Sign) {m : ℕ} {e : ℤ} (hm : 0 < m) (hbit : 2 ^ 23 ≤ m) (hlt : m < 2 ^ 24)
    (hmin : -149 ≤ e) (hmax : e < 105) :
    unpack Format.binary32
        (packComponents Format.binary32 s (BitVec.ofNat 8 (e + 150).toNat) (BitVec.ofNat 23 m)) =
      .finite s m e hm := by
  have he : (BitVec.ofNat 8 (e + 150).toNat).toNat = (e + 150).toNat := by
    rw [BitVec.toNat_ofNat]
    omega
  have hne (b : BitVec 8) (h : b.toNat ≠ (e + 150).toNat) : BitVec.ofNat 8 (e + 150).toNat ≠ b :=
    fun heq => h (by rw [← heq, he])
  rw [unpack_packComponents, if_neg (hne _ (by simp; omega)), if_neg (hne _ (by simp; omega))]
  refine finite_congr ?_ ?_
  · rw [BitVec.toNat_ofNat]
    omega
  · rw [he]
    omega

/-- One without it has the least exponent. -/
theorem unpack_subnormal (s : Sign) {m : ℕ} (hm : 0 < m) (hlt : m < 2 ^ 23) :
    unpack Format.binary32 (packComponents Format.binary32 s 0#8 (BitVec.ofNat 23 m)) =
      .finite s m (-149) hm := by
  have hm' : (BitVec.ofNat 23 m).toNat = m := by
    rw [BitVec.toNat_ofNat]
    omega
  rw [unpack_packComponents, if_neg (by decide), if_pos rfl, dif_neg]
  · exact finite_congr hm' rfl
  · intro h0
    rw [h0] at hm'
    simp at hm'
    omega

/-- A significand of 24 bits is packed without its leading bit, a shorter one
with the least exponent. An exponent that is too large gives an infinity. -/
theorem pack_finite (s : Sign) {m : ℕ} {e : ℤ} (hm : 0 < m) (hlt : m < 2 ^ 24) :
    pack Format.binary32 (.finite s m e hm) =
      if 105 ≤ e then packedInfinity Format.binary32 s
      else if 2 ^ 23 ≤ m then
        packComponents Format.binary32 s (BitVec.ofNat 8 (e + 150).toNat) (BitVec.ofNat 23 m)
      else packComponents Format.binary32 s 0#8 (BitVec.ofNat 23 m) := by
  have hbias :
      (e + Format.binary32.exponentBias + Format.binary32.mantissaBitsWithoutImplicit).toNat =
      (e + 150).toNat := by
    congr 1
    rw [add_assoc]
    rfl
  have hbits : Format.binary32.mantissaBits = 24 := rfl
  have hbig : 2 ^ 8 ≤ (e + 150).toNat + 1 ↔ 105 ≤ e := by
    norm_num
    omega
  have hlog : m.log2 + 1 = 24 ↔ 2 ^ 23 ≤ m := by
    have h1 := (Nat.log2_lt hm.ne').mpr hlt
    have h2 := Nat.le_log2 hm.ne' (k := 23)
    omega
  unfold pack
  simp only [hbias, hbits, hlog, hbig]

/-- Packing loses nothing but exponents that are too large. -/
theorem unpack_pack {u : UnpackedFloat} (hc : Canonical u) :
    unpack Format.binary32 (pack Format.binary32 u) = overflow u := by
  cases u with
  | infinity s => exact unpack_packComponents s _ _
  | notANumber => exact unpack_packComponents .positive _ _
  | zero s => exact unpack_packComponents s _ _
  | finite s m e hm =>
    obtain ⟨hlt, hmin, hnorm⟩ := hc
    rw [pack_finite s hm hlt]
    simp only [overflow]
    split_ifs with hbig hbit
    · exact unpack_packComponents s _ _
    · exact unpack_normal s hm hbit hlt hmin (not_le.mp hbig)
    · obtain rfl : e = -149 := hnorm.resolve_left hbit
      exact unpack_subnormal s hm (Nat.not_le.mp hbit)

/-- What is unpacked is canonical, and no exponent is too large. -/
theorem canonical_unpack (b : BitVec Format.binary32.numBits) :
    Canonical (unpack Format.binary32 b) ∧
      overflow (unpack Format.binary32 b) = unpack Format.binary32 b := by
  have hexp : (unpackExponent b).toNat < 256 := (unpackExponent b).isLt
  have hman : (unpackMantissa b).toNat < 2 ^ 23 := (unpackMantissa b).isLt
  rw [unpack_eq (b := b) rfl rfl rfl]
  split_ifs with h1 h2 h3 h4
  · exact ⟨trivial, rfl⟩
  · exact ⟨trivial, rfl⟩
  · exact ⟨trivial, rfl⟩
  · exact ⟨⟨hman.trans (by norm_num), by decide, .inr rfl⟩, rfl⟩
  · have h0 : (unpackExponent b).toNat ≠ 0 := fun h => h3 (BitVec.eq_of_toNat_eq h)
    have h255 : (unpackExponent b).toNat ≠ 255 := fun h => h1 (BitVec.eq_of_toNat_eq h)
    exact ⟨⟨by omega, by omega, .inl (by omega)⟩, if_neg (by omega)⟩

end TileCompositor.Binary32
