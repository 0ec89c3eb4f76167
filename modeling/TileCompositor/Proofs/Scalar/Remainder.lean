import TileCompositor.Proofs.Scalar.Whole
import TileCompositor.Scalar.Remainder
/-!
# Remainders, in numbers

`truncMod` gives the remainder without rounding. `euclidMod` adds a period to
a negative one, and that sum is rounded: it stays within the period unless the
remainder is so close below zero that the sum rounds to the period itself.

Results:
* `denotes_truncMod`: the exact remainder of the division cut off at the point.
* `denotes_euclidMod`: the remainder, a period added if it is negative.
* `periodic_add_mul`: whole multiples of the period make no difference.
* `le_euclidMod_iff`: when the result is not below the period.
-/
namespace TileCompositor.Scalar
open Float.Model (Format UnpackedFloat)
open Float.Model.UnpackedFloat
open Binary32

/-- What a division by `q`, the quotient cut off at the point, leaves of `p`. -/
def remainder (p q : ℚ) : ℚ := p - q * wholePart (p / q)

theorem wholePart_signValue_mul (s : Sign) {c : ℚ} (hc : 0 ≤ c) :
    (wholePart (signValue s * c) : ℚ) = signValue s * ⌊c⌋ := by
  have hfl : wholePart c = ⌊c⌋ := if_neg hc.not_gt
  cases s
  · rw [signValue_negative, neg_one_mul, neg_one_mul]
    rcases hc.eq_or_lt with rfl | hpos
    · simp [wholePart]
    · rw [wholePart, if_pos (neg_lt_zero.mpr hpos), Int.ceil_neg]
      push_cast
      rfl
  · rw [signValue_positive, one_mul, one_mul, hfl]

theorem abs_remainder_lt (p : ℚ) {q : ℚ} (hq : q ≠ 0) : |remainder p q| < |q| := by
  have h1 : remainder p q = q * (p / q - wholePart (p / q)) := by
    unfold remainder
    field_simp
  have h2 : |p / q - wholePart (p / q)| < 1 := by
    rw [abs_lt]
    unfold wholePart
    split_ifs
    · have h3 := Int.ceil_lt_add_one (p / q)
      have h4 := Int.le_ceil (p / q)
      constructor <;> linarith
    · have h3 := Int.floor_le (p / q)
      have h4 := Int.lt_floor_add_one (p / q)
      constructor <;> linarith
  rw [h1, abs_mul]
  exact mul_lt_of_lt_one_right (abs_pos.mpr hq) h2

/-- A number that is not negative leaves no negative remainder. -/
theorem remainder_nonneg {p q : ℚ} (hp : 0 ≤ p) (hq : 0 < q) : 0 ≤ remainder p q := by
  have h1 : wholePart (p / q) = ⌊p / q⌋ := if_neg (div_nonneg hp hq.le).not_gt
  have h2 := Int.floor_le (p / q)
  rw [le_div_iff₀ hq] at h2
  unfold remainder
  rw [h1]
  linarith

/-- What is nearer to zero than `q` is its own remainder. -/
theorem remainder_of_abs_lt {p q : ℚ} (h : |p| < |q|) : remainder p q = p := by
  have hq : q ≠ 0 := abs_pos.mp ((abs_nonneg p).trans_lt h)
  have hd : |p / q| < 1 := by rwa [abs_div, div_lt_one (abs_pos.mpr hq)]
  obtain ⟨h1, h2⟩ := abs_lt.mp hd
  have h0 : wholePart (p / q) = 0 := by
    unfold wholePart
    split_ifs with hneg
    · exact Int.ceil_eq_zero_iff.mpr ⟨h1, hneg.le⟩
    · exact Int.floor_eq_zero_iff.mpr ⟨not_lt.mp hneg, h2⟩
  rw [remainder, h0, Int.cast_zero, mul_zero, sub_zero]

/-- Of whole multiples of one power the remainder is that of the multiples,
with the sign of the first. -/
theorem remainder_mul_zpow (s t : Sign) (m : ℕ) {n : ℕ} (hn : 0 < n) (g : ℤ) :
    remainder (signValue s * (m * 2 ^ g)) (signValue t * (n * 2 ^ g)) =
      ((s.apply ((m % n : ℕ) : ℤ) : ℤ) : ℚ) * 2 ^ g := by
  have hnq : (0 : ℚ) < n := by exact_mod_cast hn
  have hdiv : signValue s * (m * 2 ^ g) / (signValue t * (n * 2 ^ g)) =
      signValue (s / t) * (m / n) := by
    rw [signValue_div]
    cases t <;> simp only [signValue_negative, signValue_positive] <;>
      field_simp [(two_zpow_pos g).ne']
  have hfloor : ⌊(m : ℚ) / n⌋ = ((m / n : ℕ) : ℤ) := Rat.floor_intCast_div_natCast m n
  have hmod : ((m / n : ℕ) : ℚ) * n + (m % n : ℕ) = m := by exact_mod_cast Nat.div_add_mod' m n
  have hsign : signValue t * signValue t = 1 := by cases t <;> norm_num
  rw [remainder, hdiv, wholePart_signValue_mul _ (by positivity), hfloor, apply_eq, signValue_div,
    Int.cast_natCast, Int.cast_natCast]
  linear_combination
    -(signValue s * 2 ^ g) * hmod - signValue s * n * 2 ^ g * ((m / n : ℕ) : ℚ) * hsign

/-- Shifted to the smaller of their exponents, two significands leave a
remainder that is a significand. -/
theorem shiftLeft_mod_lt {m n : ℕ} (e f : ℤ) (hm : m < 2 ^ 24) (hn : n < 2 ^ 24) (h0 : 0 < n) :
    m <<< (e - min e f).toNat % n <<< (f - min e f).toNat < 2 ^ 24 := by
  rcases min_choice e f with h | h
  · have h1 : (e - min e f).toNat = 0 := by omega
    rw [h1, Nat.shiftLeft_zero]
    exact (Nat.mod_le _ _).trans_lt hm
  · have h1 : (f - min e f).toNat = 0 := by omega
    rw [h1, Nat.shiftLeft_zero]
    exact (Nat.mod_lt _ h0).trans hn

section
variable {a b : Float32} {p q : ℚ}

theorem truncMod_of_view {s t : Sign} {m n : ℕ} {e f : ℤ} {hm : 0 < m} {hn : 0 < n}
    (h : ¬ a.abs < b.abs) (ha : view a = .finite s m e hm) (hb : view b = .finite t n f hn) :
    truncMod a b = Float32.ofModel (Float32.Model.pack (UnpackedFloat.normalize Format.binary32
      (s.apply ((m <<< (e - min e f).toNat % n <<< (f - min e f).toNat : ℕ) : ℤ)) (min e f) s)) := by
  unfold view at ha hb
  rw [truncMod, if_neg h, ha, hb]

theorem denotes_truncMod (ha : Denotes a p) (hb : Denotes b q) (hq : q ≠ 0) :
    Denotes (truncMod a b) (remainder p q) := by
  by_cases hlt : |p| < |q|
  · rw [truncMod, if_pos ((ha.abs.lt_iff hb.abs).mpr hlt), remainder_of_abs_lt hlt]
    exact ha
  have hva := ha.value
  have hvb := hb.value
  have hca := canonical_view a
  have hcb := canonical_view b
  obtain ⟨s, hs⟩ | ⟨s, m, e, hm, hs⟩ := isFinite_cases ha.finite
  · rw [hs] at hva
    exact absurd (hva ▸ (abs_zero.trans_lt (abs_pos.mpr hq))) hlt
  obtain ⟨t, ht⟩ | ⟨t, n, f, hn, ht⟩ := isFinite_cases hb.finite
  · rw [ht] at hvb
    exact absurd hvb.symm hq
  rw [hs] at hca hva
  rw [ht] at hcb hvb
  -- both operands as whole multiples of the smaller power
  have hM : ((m <<< (e - min e f).toNat : ℕ) : ℚ) * 2 ^ min e f = m * 2 ^ e :=
    shiftLeft_mul_zpow m (by omega)
  have hN : ((n <<< (f - min e f).toNat : ℕ) : ℚ) * 2 ^ min e f = n * 2 ^ f :=
    shiftLeft_mul_zpow n (by omega)
  have hpos : 0 < n <<< (f - min e f).toNat := by
    rw [Nat.shiftLeft_eq]
    positivity
  have hr : remainder p q =
      ((s.apply ((m <<< (e - min e f).toNat % n <<< (f - min e f).toNat : ℕ) : ℤ) : ℤ) : ℚ) *
        2 ^ min e f := by
    rw [← remainder_mul_zpow s t _ hpos, hM, hN, ← hva, ← hvb]
    rfl
  have hvalue : IsValue (remainder p q) := by
    refine ⟨hr ▸ ⟨_, min e f, ?_, le_min hca.2.1 hcb.2.1, rfl⟩,
      (abs_remainder_lt p hq).trans hb.abs_lt⟩
    have := (shiftLeft_mod_lt e f hca.1 hcb.1 hn).le
    cases s <;> simp only [Sign.apply, abs_neg] <;> rw [Nat.abs_cast] <;> exact_mod_cast this
  have hround := normalize_rounded
    (s.apply ((m <<< (e - min e f).toNat % n <<< (f - min e f).toNat : ℕ) : ℤ)) (min e f) s
  rw [← hr] at hround
  rw [truncMod_of_view (fun h => hlt ((ha.abs.lt_iff hb.abs).mp h)) hs ht]
  have := hround.denotes hvalue.abs_nearest_lt
  rwa [nearest_of_representable hvalue.representable] at this

/-- The remainder, a period added if it is negative. -/
def periodic (p q : ℚ) : ℚ :=
  if remainder p q < 0 then nearest (remainder p q + |q|) else remainder p q

theorem denotes_euclidMod (ha : Denotes a p) (hb : Denotes b q) (hq : q ≠ 0) :
    Denotes (euclidMod a b) (periodic p q) := by
  have hr := denotes_truncMod ha hb hq
  have habs := abs_lt.mp (abs_remainder_lt p hq)
  unfold euclidMod periodic
  by_cases hneg : remainder p q < 0
  · rw [if_pos ((hr.lt_iff denotes_zero).mpr hneg), if_pos hneg]
    apply hr.add hb.abs
    rw [abs_of_nonneg (nearest_nonneg (by linarith))]
    exact (nearest_le hb.abs.representable (by linarith)).trans_lt (by simpa using hb.abs_lt)
  · rw [if_neg (fun h => hneg ((hr.lt_iff denotes_zero).mp h)), if_neg hneg]
    exact hr

/-- Whatever the sign of the first number is, the result is its distance from
the multiple of the period below it, rounded. A remainder that is not negative
is this distance and is exact already. -/
theorem periodic_eq_nearest (ha : Denotes a p) (hb : Denotes b q) (hq : 0 < q) :
    periodic p q = nearest (p - q * ⌊p / q⌋) := by
  have hneg : remainder p q < 0 ↔ p / q < wholePart (p / q) := by
    rw [remainder, sub_neg, div_lt_iff₀ hq, mul_comm q]
  unfold periodic
  by_cases hlt : p / q < wholePart (p / q)
  · have hfloor : (⌊p / q⌋ : ℚ) = wholePart (p / q) - 1 := by
      rw [← wholePart_sub_one hlt]
      push_cast
      ring
    rw [if_pos (hneg.mpr hlt), abs_of_pos hq, hfloor, remainder]
    congr 1
    ring
  · have hexact := nearest_of_representable (denotes_truncMod ha hb hq.ne').representable
    rw [if_neg (fun h => hlt (hneg.mp h)), ← wholePart_eq_floor hlt]
    exact hexact.symm

/-- Whole multiples of the period make no difference. -/
theorem periodic_add_mul {a' : Float32} (ha : Denotes a p) (hb : Denotes b q) (hq : 0 < q) (k : ℤ)
    (ha' : Denotes a' (p + k * q)) : periodic (p + k * q) q = periodic p q := by
  have hquot : (p + k * q) / q = p / q + k := by
    rw [add_div, mul_div_cancel_right₀ _ hq.ne']
  rw [periodic_eq_nearest ha hb hq, periodic_eq_nearest ha' hb hq, hquot, Int.floor_add_intCast]
  congr 1
  push_cast
  ring

/-- The result leaves the period only where the added period absorbs a
negative remainder. -/
theorem le_euclidMod_iff (ha : Denotes a p) (hb : Denotes b q) (hq : 0 < q) :
    b ≤ euclidMod a b ↔ remainder p q < 0 ∧ nearest (remainder p q + q) = q := by
  have habs := abs_lt.mp (abs_remainder_lt p hq.ne')
  rw [hb.le_iff (denotes_euclidMod ha hb hq.ne'), periodic, abs_of_pos hq] at *
  split_ifs with hneg
  · have hle : nearest (remainder p q + q) ≤ q := nearest_le hb.representable (by linarith)
    exact ⟨fun h => ⟨hneg, le_antisymm hle h⟩, fun h => h.2.ge⟩
  · exact iff_of_false (not_le.mpr habs.2) (fun h => hneg h.1)

end

end TileCompositor.Scalar
