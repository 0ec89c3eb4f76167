import TileCompositor.Proofs.Binary32.Order
import TileCompositor.Proofs.Binary32.Sums
import TileCompositor.Proofs.Binary32.UnitInterval
import TileCompositor.Scalar.Order
/-!
# Whole-number rounding and order, in numbers

What the scalar operations give for operands that denote numbers. A value of
magnitude 2^23 or more is whole, so the roundings lose nothing there; below,
a whole part fits a word and converts back exactly.

Results:
* `denotes_trunc`, `denotes_floor`, `denotes_ceil`: the whole part, floor and
  ceiling of the number, without rounding error.
* `denotes_round`, `round_mono`: the nearest whole number, of two the one away from zero, and the
  order of these.
* `denotesUnit_sub_floor`: what is left of a number above its floor.
* `denotes_minNum`, `denotes_maxNum`, `denotes_clamp`: minimum, maximum and clamping.
* `denotes_ofNat`, `toNatClamped_eq`: counts.
* `toInt64Clamped_intCast`: whole numbers as signed words.
-/
namespace TileCompositor.Scalar
open Binary32

/-- Values of magnitude 2^23 or more are whole. -/
theorem exists_int_of_large {q : ℚ} (hq : Representable q) (h : 2 ^ 23 ≤ |q|) : ∃ n : ℤ, q = n := by
  obtain ⟨n, hn⟩ := hq.isMultiple_of_le (e := 0) (by exact_mod_cast h)
  exact ⟨n, by rw [hn, zpow_zero, mul_one]⟩

/-! ## Roundings -/

section Roundings
variable {x : Float32} {q : ℚ}

/-- The number cut off at the point. -/
def wholePart (q : ℚ) : ℤ := if q < 0 then ⌈q⌉ else ⌊q⌋

@[simp] theorem wholePart_intCast (n : ℤ) : wholePart n = n := by
  simp [wholePart]

theorem denotes_limit : Denotes 8388608.0 (2 ^ 23) :=
  denotes_of_view_eq (2 ^ 23) 0 ⟨by decide, rfl⟩ (by norm_num)

theorem denotes_trunc (h : Denotes x q) : Denotes (trunc x) (wholePart q) := by
  unfold trunc
  have hlim := h.abs.lt_iff denotes_limit
  by_cases hq : |q| < 2 ^ 23
  · rw [if_pos (hlim.mpr hq)]
    have hfl : ⌊|q|⌋₊ < 2 ^ 23 := (Nat.floor_lt (abs_nonneg q)).mpr (by exact_mod_cast hq)
    have hw : x.abs.toUInt32.toNat = ⌊|q|⌋₊ := by
      rw [h.abs.toNat_toUInt32]
      omega
    have hm : Denotes x.abs.toUInt32.toFloat32 ⌊|q|⌋₊ := by
      have := denotes_toFloat32_of_le (n := x.abs.toUInt32) (by omega)
      rwa [hw] at this
    have hcast : ((⌊|q|⌋₊ : ℕ) : ℚ) = ((⌊|q|⌋ : ℤ) : ℚ) :=
      natCast_floor_eq_intCast_floor (abs_nonneg q)
    rw [hcast] at hm
    rcases lt_trichotomy q 0 with hneg | rfl | hpos
    · rw [if_pos ((h.signBit hneg.ne).mpr hneg), wholePart, if_pos hneg]
      rw [abs_of_neg hneg, Int.floor_neg] at hm
      simpa using hm.neg
    · rw [abs_zero, Int.floor_zero, Int.cast_zero] at hm
      have hn := hm.neg
      rw [neg_zero] at hn
      rw [show wholePart 0 = 0 from rfl, Int.cast_zero]
      split
      · exact hn
      · exact hm
    · rw [if_neg (fun hs => absurd ((h.signBit hpos.ne').mp hs) hpos.le.not_gt), wholePart,
        if_neg hpos.le.not_gt]
      rwa [abs_of_pos hpos] at hm
  · rw [if_neg (fun hlt => hq (hlim.mp hlt))]
    obtain ⟨n, rfl⟩ := exists_int_of_large h.representable (not_lt.mp hq)
    rwa [wholePart_intCast]

/-- A value that is not whole is far below the bound on exact whole numbers. -/
theorem abs_lt_of_ne_wholePart (h : Denotes x q) (hne : q ≠ wholePart q) : |q| < 2 ^ 23 := by
  by_contra hge
  obtain ⟨n, rfl⟩ := exists_int_of_large h.representable (not_lt.mp hge)
  exact hne (by rw [wholePart_intCast])

/-- Above the number, the whole part is one too large to be the floor. -/
theorem wholePart_sub_one (hq : q < wholePart q) : wholePart q - 1 = ⌊q⌋ := by
  unfold wholePart at *
  split_ifs at * with hneg
  · refine (Int.floor_eq_iff.mpr ⟨?_, ?_⟩).symm <;> push_cast
    · linarith [Int.ceil_lt_add_one q]
    · linarith
  · exact absurd (Int.floor_le q) (not_le.mpr hq)

theorem wholePart_eq_floor (hq : ¬ q < wholePart q) : wholePart q = ⌊q⌋ := by
  unfold wholePart at *
  split_ifs at * with hneg
  · have h1 : q = ⌈q⌉ := le_antisymm (Int.le_ceil q) (not_lt.mp hq)
    rw [h1, Int.ceil_intCast, Int.floor_intCast]
  · rfl

/-- Below the number, it is one too small to be the ceiling. -/
theorem wholePart_add_one (hq : wholePart q < q) : wholePart q + 1 = ⌈q⌉ := by
  unfold wholePart at *
  split_ifs at * with hneg
  · exact absurd (Int.le_ceil q) (not_le.mpr hq)
  · refine (Int.ceil_eq_iff.mpr ⟨?_, ?_⟩).symm <;> push_cast
    · linarith
    · linarith [Int.lt_floor_add_one q]

theorem wholePart_eq_ceil (hq : ¬ wholePart q < q) : wholePart q = ⌈q⌉ := by
  unfold wholePart at *
  split_ifs at * with hneg
  · rfl
  · have h1 : q = ⌊q⌋ := le_antisymm (not_lt.mp hq) (Int.floor_le q)
    rw [h1, Int.ceil_intCast, Int.floor_intCast]

theorem denotes_floor (h : Denotes x q) : Denotes (floor x) ⌊q⌋ := by
  have ht := denotes_trunc h
  have hlt := h.lt_iff ht
  unfold floor
  by_cases hq : q < wholePart q
  · obtain ⟨h1, h2⟩ := abs_lt.mp (abs_lt_of_ne_wholePart h hq.ne)
    have hlo : -2 ^ 23 ≤ ⌊q⌋ := Int.le_floor.mpr (by push_cast; exact h1.le)
    have hhi : ⌊q⌋ < 2 ^ 23 := Int.floor_lt.mpr (by push_cast; exact h2)
    have hval := wholePart_sub_one hq
    have hsub := ht.sub_intCast (n := 1) (by exact_mod_cast denotes_one) (by rw [hval, abs_le]; omega)
    rw [if_pos (hlt.mpr hq), ← hval]
    exact hsub
  · rw [if_neg (fun hx => hq (hlt.mp hx)), ← wholePart_eq_floor hq]
    exact ht

theorem denotes_ceil (h : Denotes x q) : Denotes (ceil x) ⌈q⌉ := by
  have ht := denotes_trunc h
  have hlt := ht.lt_iff h
  unfold ceil
  by_cases hq : wholePart q < q
  · obtain ⟨h1, h2⟩ := abs_lt.mp (abs_lt_of_ne_wholePart h hq.ne')
    have hlo : -2 ^ 23 < ⌈q⌉ := Int.lt_ceil.mpr (by push_cast; exact h1)
    have hhi : ⌈q⌉ ≤ 2 ^ 23 := Int.ceil_le.mpr (by push_cast; exact h2.le)
    have hval := wholePart_add_one hq
    have hadd := ht.add_intCast (n := 1) (by exact_mod_cast denotes_one) (by rw [hval, abs_le]; omega)
    rw [if_pos (hlt.mpr hq), ← hval]
    exact hadd
  · rw [if_neg (fun hx => hq (hlt.mp hx)), ← wholePart_eq_ceil hq]
    exact ht

/-- What is left above the floor; just below a whole number it is rounded up to one. -/
theorem denotesUnit_sub_floor (h : Denotes x q) :
    DenotesUnit (x - floor x) (nearest (Int.fract q)) := by
  have h0 : 0 ≤ Int.fract q := Int.fract_nonneg q
  have h1 : nearest (Int.fract q) ≤ 1 := nearest_le representable_one (Int.fract_lt_one q).le
  exact ⟨h.sub (denotes_floor h) (abs_nearest_lt_of_unit h0 h1), nearest_nonneg h0, h1⟩

/-- The whole number nearest to `q`, of two equally near the one away from zero. -/
def nearestAway (q : ℚ) : ℤ := if q < 0 then ⌈q - 1 / 2⌉ else ⌊q + 1 / 2⌋

@[simp] theorem nearestAway_intCast (n : ℤ) : nearestAway n = n := by
  unfold nearestAway
  split_ifs
  · rw [Int.ceil_eq_iff]
    constructor <;> linarith
  · rw [Int.floor_eq_iff]
    constructor <;> linarith

theorem nearestAway_mono {p q : ℚ} (h : p ≤ q) : nearestAway p ≤ nearestAway q := by
  unfold nearestAway
  split_ifs with hp hq hq
  · exact Int.ceil_mono (by linarith)
  · have hle : ⌈p - 1 / 2⌉ ≤ 0 := Int.ceil_le.mpr (by push_cast; linarith)
    exact hle.trans (Int.floor_nonneg.mpr (by linarith))
  · linarith
  · exact Int.floor_mono (by linarith)

/-- What the whole part leaves decides. -/
theorem nearestAway_eq (q : ℚ) :
    nearestAway q = if |q - wholePart q| < 1 / 2 then wholePart q
      else if q < 0 then wholePart q - 1 else wholePart q + 1 := by
  unfold nearestAway wholePart
  split_ifs with hq hhalf hhalf
  · have hle := Int.le_ceil q
    rw [abs_lt] at hhalf
    rw [Int.ceil_eq_iff]
    constructor <;> linarith
  · have hle := Int.le_ceil q
    have hlt := Int.ceil_lt_add_one q
    rw [abs_of_nonpos (by linarith), not_lt] at hhalf
    rw [Int.ceil_eq_iff]
    push_cast
    constructor <;> linarith
  · have hle := Int.floor_le q
    rw [abs_lt] at hhalf
    rw [Int.floor_eq_iff]
    constructor <;> linarith
  · have hle := Int.floor_le q
    have hlt := Int.lt_floor_add_one q
    rw [abs_of_nonneg (by linarith), not_lt] at hhalf
    rw [Int.floor_eq_iff]
    push_cast
    constructor <;> linarith

theorem abs_sub_wholePart_le (q : ℚ) : |q - wholePart q| ≤ |q| := by
  unfold wholePart
  split_ifs with hq
  · have hle : (⌈q⌉ : ℚ) ≤ 0 := by exact_mod_cast Int.ceil_le.mpr (by push_cast; exact hq.le)
    rw [abs_of_neg hq, abs_of_nonpos (by linarith [Int.le_ceil q])]
    linarith
  · have hle : (0 : ℚ) ≤ ⌊q⌋ := by exact_mod_cast Int.floor_nonneg.mpr (not_lt.mp hq)
    rw [abs_of_nonneg (not_lt.mp hq), abs_of_nonneg (by linarith [Int.floor_le q])]
    linarith

/-- What the whole part leaves is a value: it has the spacing of the number and is no larger. -/
theorem isValue_sub_wholePart {q : ℚ} (h : IsValue q) : IsValue (q - wholePart q) := by
  refine ⟨?_, (abs_sub_wholePart_le q).trans_lt h.abs_lt⟩
  obtain ⟨m, e, hm, he, hq⟩ := h.representable
  rcases le_total 0 e with hwhole | hsmall
  · obtain ⟨n, hn⟩ := exists_mul_zpow m hwhole
    rw [hq, hn, zpow_zero, mul_one, wholePart_intCast, sub_self]
    exact isValue_zero.representable
  · refine ((IsMultiple.sub ⟨m, hq⟩ ((isMultiple_intCast _).of_le hsmall)).representable he ?_)
    have habs : |q| ≤ 2 ^ 24 * 2 ^ e := by
      rw [hq, abs_mul, abs_of_pos (two_zpow_pos e)]
      exact mul_le_mul_of_nonneg_right (by exact_mod_cast hm) (two_zpow_pos e).le
    exact (abs_sub_wholePart_le q).trans habs

/-- One more or one less than the whole part of a number that is not whole is exact. -/
theorem abs_wholePart_lt (h : Denotes x q) (hne : q ≠ wholePart q) : |wholePart q| < 2 ^ 24 := by
  have hlt := abs_lt_of_ne_wholePart h hne
  have hle := (abs_sub_abs_le_abs_sub (wholePart q : ℚ) q).trans_eq (abs_sub_comm _ _)
  have htwice : |(wholePart q : ℚ)| < 2 ^ 24 := by linarith [abs_sub_wholePart_le q]
  exact_mod_cast htwice

/-- Rounding is exact. -/
theorem denotes_round (h : Denotes x q) : Denotes (round x) (nearestAway q) := by
  have ht := denotes_trunc h
  have hleft := h.sub_exact ht (isValue_sub_wholePart h.isValue)
  rw [nearestAway_eq]
  unfold round
  by_cases hhalf : |q - wholePart q| < 1 / 2
  · rw [if_pos ((hleft.abs.lt_iff denotes_half).mpr hhalf), if_pos hhalf]
    exact ht
  rw [if_neg (mt (hleft.abs.lt_iff denotes_half).mp hhalf), if_neg hhalf]
  have hne : q ≠ wholePart q := by
    intro heq
    rw [← heq, sub_self, abs_zero] at hhalf
    norm_num at hhalf
  obtain ⟨hlo, hhi⟩ := abs_lt.mp (abs_wholePart_lt h hne)
  by_cases hneg : q < 0
  · rw [if_pos ((h.lt_iff denotes_zero).mpr hneg), if_pos hneg]
    exact ht.sub_intCast (n := 1) (by exact_mod_cast denotes_one) (by rw [abs_le]; omega)
  · have hpos : 0 < q := (not_lt.mp hneg).lt_of_ne (by rintro rfl; exact hne (by simp [wholePart]))
    rw [if_neg (mt (h.lt_iff denotes_zero).mp hneg), if_neg hneg, if_pos ((denotes_zero.lt_iff h).mpr hpos)]
    exact ht.add_intCast (n := 1) (by exact_mod_cast denotes_one) (by rw [abs_le]; omega)

/-- Whole numbers are their own rounding. -/
theorem denotes_round_intCast {n : ℤ} (h : Denotes x n) : Denotes (round x) n := by
  have hround := denotes_round h
  rwa [nearestAway_intCast] at hround

/-- So are the infinities. -/
theorem round_of_infinity {s : Float.Model.UnpackedFloat.Sign} (h : view x = .infinity s) : round x = x := by
  cases s with
  | positive =>
    obtain rfl : x = infinity := eq_of_view (h.trans rfl)
    decide +kernel
  | negative =>
    obtain rfl : x = -infinity := eq_of_view (h.trans rfl)
    decide +kernel

theorem ranks_round (h : Ranks x q) : Ranks (round x) (nearestAway q) := by
  cases h with
  | number h => exact .number (denotes_round h)
  | @infinity s h =>
    obtain ⟨n, hn⟩ : ∃ n : ℤ, signValue s * 2 ^ 128 = (n : ℚ) := by
      cases s with
      | positive => exact ⟨2 ^ 128, by norm_num⟩
      | negative => exact ⟨-2 ^ 128, by norm_num⟩
    rw [hn, nearestAway_intCast, ← hn]
    exact .infinity (by rwa [round_of_infinity h])

/-- Rounding keeps order. -/
theorem round_mono {y : Float32} (h : x ≤ y) : round x ≤ round y := by
  obtain ⟨p, q, hx, hy, hpq⟩ := ranks_of_le h
  exact ((ranks_round hx).le_iff (ranks_round hy)).mpr (by exact_mod_cast nearestAway_mono hpq)

end Roundings

/-! ## Minimum, maximum and clamping -/

section Order
variable {a b : Float32} {p q : ℚ}

theorem denotes_minNum (ha : Denotes a p) (hb : Denotes b q) : Denotes (minNum a b) (min p q) := by
  unfold minNum
  rw [hb.isNaN, if_neg Bool.false_ne_true]
  by_cases h : p < q
  · rw [if_pos ((ha.lt_iff hb).mpr h), min_eq_left h.le]
    exact ha
  · rw [if_neg (fun hab => h ((ha.lt_iff hb).mp hab)), min_eq_right (not_lt.mp h)]
    exact hb

theorem denotes_maxNum (ha : Denotes a p) (hb : Denotes b q) : Denotes (maxNum a b) (max p q) := by
  unfold maxNum
  rw [hb.isNaN, if_neg Bool.false_ne_true]
  by_cases h : q < p
  · rw [if_pos ((hb.lt_iff ha).mpr h), max_eq_left h.le]
    exact ha
  · rw [if_neg (fun hab => h ((hb.lt_iff ha).mp hab)), max_eq_right (not_lt.mp h)]
    exact hb

theorem denotes_clamp {x lo hi : Float32} {u v : ℚ} (hx : Denotes x p) (hlo : Denotes lo u)
    (hhi : Denotes hi v) : Denotes (clamp x lo hi) (min (max p u) v) := by
  have hraised : Denotes (if x < lo then lo else x) (max p u) := by
    by_cases h : p < u
    · rw [if_pos ((hx.lt_iff hlo).mpr h), max_eq_right h.le]
      exact hlo
    · rw [if_neg (fun hxlo => h ((hx.lt_iff hlo).mp hxlo)), max_eq_left (not_lt.mp h)]
      exact hx
  unfold clamp
  by_cases h : v < max p u
  · rw [if_pos ((hhi.lt_iff hraised).mpr h), min_eq_right h.le]
    exact hhi
  · rw [if_neg (fun hhix => h ((hhi.lt_iff hraised).mp hhix)), min_eq_left (not_lt.mp h)]
    exact hraised

/-- Whatever the first operand is, the minimum with a number reaches no word above it. -/
theorem toNat_toUInt32_minNum_le (a : Float32) (hb : Denotes b q) :
    (minNum a b).toUInt32.toNat ≤ b.toUInt32.toNat := by
  unfold minNum
  rw [hb.isNaN, if_neg Bool.false_ne_true]
  split
  · next h => exact toNat_toUInt32_mono hb h
  · exact le_rfl

end Order

/-! ## Counts -/

theorem denotes_ofNat {n : ℕ} (h : n < 2 ^ 64) : Denotes (ofNat n) (nearest n) := by
  have := denotes_ofUInt64 n.toUInt64
  rwa [show n.toUInt64.toNat = n from Nat.mod_eq_of_lt h] at this

/-- Counts of at most 24 bits are exact. -/
theorem denotes_ofNat_of_le {n : ℕ} (h : n ≤ 2 ^ 24) : Denotes (ofNat n) n := by
  have := denotes_ofNat (n := n) (by omega)
  rwa [nearest_natCast h] at this

/-- A conversion to a count cuts the fraction off. -/
theorem toNatClamped_eq {x : Float32} {q : ℚ} (h : Denotes x q) (hq : q < 2 ^ 64) :
    toNatClamped x = ⌊q⌋₊ := by
  have hlt : ⌊q⌋₊ < 2 ^ 64 := (Nat.floor_lt' (by norm_num)).mpr (by exact_mod_cast hq)
  rw [toNatClamped, h.toNat_toUInt64]
  omega

/-! ## Signed words -/

/-- A whole number that fits a signed word is converted as it is. -/
theorem toInt64Clamped_intCast {x : Float32} {n : ℤ} (h : Denotes x n) (hn : |n| < 2 ^ 63) :
    toInt64Clamped x = n := by
  rw [Int.abs_eq_natAbs] at hn
  have hword : x.abs.toUInt64.toNat = n.natAbs := by
    have hfloor : ⌊|(n : ℚ)|⌋₊ = n.natAbs := by
      rw [← Int.cast_abs, Int.abs_eq_natAbs, Int.cast_natCast, Nat.floor_natCast]
    rw [h.abs.toNat_toUInt64, hfloor]
    omega
  have hsign : x < 0.0 ↔ n < 0 := by
    rw [h.lt_iff denotes_zero]
    exact Int.cast_lt_zero
  simp only [toInt64Clamped, hword]
  split
  · next hneg =>
    have := hsign.mp hneg
    omega
  · next hneg =>
    have := mt hsign.mpr hneg
    omega

end TileCompositor.Scalar
