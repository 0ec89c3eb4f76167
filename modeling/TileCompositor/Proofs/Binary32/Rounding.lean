import Mathlib
/-!
# Rounding rational numbers to binary32

A binary32 value is a whole number of at most 24 bits times a power of two
that is not below 2^-149. `nearest q` is the value nearest to `q`, of two
equally near the one whose whole number is even; the upper end of the
exponents is left open, so that overflow can be treated apart.

Results:
* `nearest_representable`, `nearest_of_representable`: `nearest` gives values
  and fixes them.
* `nearest_mono`, `nearest_neg`: it keeps order and is odd, hence the bounds
  by representable values, `nearest_le` and `le_nearest`.
* `abs_nearest_sub_le`, `abs_nearest_sub_le_abs_sub`: the error is at most half a spacing, and no
  value is nearer.
* `IsMultiple.nearest`: rounding keeps multiples of a power of two.
* `nearest_sub_pos`: a difference of values does not round to zero unless it
  is zero.
-/
namespace TileCompositor.Binary32

/-! ## To whole numbers -/

/-- The whole number nearest to `q`, of two equally near the even one. -/
def nearestInt (q : ℚ) : ℤ :=
  if 2 * Int.fract q < 1 then ⌊q⌋
  else if 1 < 2 * Int.fract q then ⌊q⌋ + 1
  else ⌊q⌋ + ⌊q⌋ % 2

@[simp] theorem nearestInt_intCast (n : ℤ) : nearestInt n = n := by
  simp [nearestInt]

@[simp] theorem nearestInt_zero : nearestInt 0 = 0 := by
  simpa using nearestInt_intCast 0

theorem floor_le_nearestInt (q : ℚ) : ⌊q⌋ ≤ nearestInt q := by
  unfold nearestInt
  split_ifs <;> omega

theorem nearestInt_le_floor_add_one (q : ℚ) : nearestInt q ≤ ⌊q⌋ + 1 := by
  unfold nearestInt
  split_ifs <;> omega

/-- The nearest whole number is at most one half away. -/
theorem abs_nearestInt_sub_le (q : ℚ) : |(nearestInt q : ℚ) - q| ≤ 1 / 2 := by
  have h0 := Int.floor_add_fract q
  have h1 := Int.fract_nonneg q
  have h2 := Int.fract_lt_one q
  unfold nearestInt
  rw [abs_le]
  split_ifs with hlo hhi
  · constructor <;> linarith
  · push_cast
    constructor <;> linarith
  · -- halfway, the even neighbour is as far away as the other
    have hhalf : 2 * Int.fract q = 1 := le_antisymm (not_lt.mp hhi) (not_lt.mp hlo)
    rcases Int.emod_two_eq_zero_or_one ⌊q⌋ with h | h <;> rw [h] <;> push_cast <;>
      constructor <;> linarith

theorem nearestInt_intCast_add (k : ℤ) {d : ℚ} (h0 : 0 ≤ d) (h1 : d < 1 / 2) :
    nearestInt (k + d) = k := by
  have hfract : Int.fract d = d := Int.fract_eq_self.mpr ⟨h0, by linarith⟩
  have hfloor : ⌊d⌋ = 0 := Int.floor_eq_zero_iff.mpr ⟨h0, by linarith⟩
  rw [nearestInt, Int.fract_intCast_add, hfract, Int.floor_intCast_add, hfloor,
    if_pos (by linarith), add_zero]

/-- Halfway below an even number that number is nearest. -/
theorem nearestInt_intCast_sub_half {k : ℤ} (hk : k % 2 = 0) : nearestInt (k - 1 / 2) = k := by
  have hfloor : ⌊(k : ℚ) - 1 / 2⌋ = k - 1 := by
    rw [Int.floor_eq_iff]
    push_cast
    constructor <;> linarith
  have hfract : Int.fract ((k : ℚ) - 1 / 2) = 1 / 2 := by
    rw [Int.fract, hfloor]
    push_cast
    ring
  rw [nearestInt, hfract, hfloor, if_neg (by norm_num), if_neg (by norm_num)]
  omega

theorem nearestInt_mono {p q : ℚ} (h : p ≤ q) : nearestInt p ≤ nearestInt q := by
  have hf : ⌊p⌋ ≤ ⌊q⌋ := Int.floor_mono h
  rcases hf.lt_or_eq with hlt | heq
  · have := nearestInt_le_floor_add_one p
    have := floor_le_nearestInt q
    omega
  · -- within one step the fractional parts decide, and they are ordered
    have hr : Int.fract p ≤ Int.fract q := by
      unfold Int.fract
      rw [heq]
      linarith
    unfold nearestInt
    rw [heq]
    split_ifs <;> first | omega | linarith

theorem nearestInt_neg (q : ℚ) : nearestInt (-q) = -nearestInt q := by
  by_cases h0 : Int.fract q = 0
  · have hq : q = ⌊q⌋ := by
      have := Int.floor_add_fract q
      linarith
    rw [hq, ← Int.cast_neg, nearestInt_intCast, nearestInt_intCast]
  · have hfract := Int.fract_neg (x := q) h0
    have hfloor : ⌊-q⌋ = -⌊q⌋ - 1 := by
      have h1 := Int.floor_add_fract q
      have h2 := Int.floor_add_fract (-q)
      rw [hfract] at h2
      exact_mod_cast (show ((⌊-q⌋ : ℤ) : ℚ) = -(⌊q⌋ : ℚ) - 1 by linarith)
    unfold nearestInt
    rw [hfract, hfloor]
    split_ifs <;> first | omega | linarith

/-- The nearest whole number is at most one half away, and even if it is one half away. -/
theorem nearestInt_eq_iff {q : ℚ} {n : ℤ} :
    nearestInt q = n ↔ |q - n| ≤ 1 / 2 ∧ (|q - n| = 1 / 2 → n % 2 = 0) := by
  constructor
  · rintro rfl
    refine ⟨by rw [abs_sub_comm]; exact abs_nearestInt_sub_le q, fun htie => ?_⟩
    have h0 := Int.floor_add_fract q
    have h1 := Int.fract_nonneg q
    have h2 := Int.fract_lt_one q
    unfold nearestInt at htie ⊢
    split_ifs at htie ⊢ with hlo hhi
    · rw [abs_of_nonneg] at htie <;> linarith
    · push_cast at htie
      rw [abs_of_nonpos] at htie <;> linarith
    · omega
  · rintro ⟨hle, htie⟩
    obtain ⟨d, rfl⟩ : ∃ d, q = n + d := ⟨q - n, by ring⟩
    rw [add_sub_cancel_left] at hle htie
    have hneg : nearestInt (n + d) = -nearestInt ((-n : ℤ) + -d) := by
      rw [← nearestInt_neg]
      push_cast
      ring_nf
    rcases hle.lt_or_eq with hlt | heq
    · rcases le_or_gt 0 d with h0 | h0
      · exact nearestInt_intCast_add n h0 (by rwa [abs_of_nonneg h0] at hlt)
      · rw [hneg, nearestInt_intCast_add _ (by linarith) (by rwa [abs_of_neg h0] at hlt), neg_neg]
    · have heven := htie heq
      rcases (abs_eq (by norm_num)).mp heq with rfl | rfl
      · rw [hneg, ← sub_eq_add_neg, nearestInt_intCast_sub_half (by omega), neg_neg]
      · rw [← sub_eq_add_neg, nearestInt_intCast_sub_half heven]

/-- No whole number is nearer. -/
theorem abs_nearestInt_sub_le_of_int (q : ℚ) (n : ℤ) : |(nearestInt q : ℚ) - q| ≤ |(n : ℚ) - q| := by
  by_cases hn : nearestInt q = n
  · rw [hn]
  have h1 : (1 : ℚ) ≤ |(nearestInt q : ℚ) - n| := by
    exact_mod_cast Int.one_le_abs (sub_ne_zero.mpr hn)
  have h2 := abs_sub_le (nearestInt q : ℚ) q n
  have h3 := abs_nearestInt_sub_le q
  rw [abs_sub_comm q] at h2
  linarith

/-! ## The grid -/

/-- The exponent of the spacing of the values around `q`. -/
def unitExponent (q : ℚ) : ℤ := max (Int.log 2 |q| - 23) (-149)

/-- The spacing of the values around `q`. -/
def unit (q : ℚ) : ℚ := 2 ^ unitExponent q

/-- The value nearest to `q`, of two equally near the even one. -/
def nearest (q : ℚ) : ℚ := nearestInt (q / unit q) * unit q

/-- `q` is a binary32 value, the range of exponents being open above. -/
def Representable (q : ℚ) : Prop := ∃ m e : ℤ, |m| ≤ 2 ^ 24 ∧ -149 ≤ e ∧ q = m * 2 ^ e

theorem two_zpow_pos (e : ℤ) : (0 : ℚ) < 2 ^ e := by positivity

theorem unit_pos (q : ℚ) : 0 < unit q := two_zpow_pos _

theorem unitExponent_ge (q : ℚ) : -149 ≤ unitExponent q := le_max_right _ _

@[simp] theorem unitExponent_neg (q : ℚ) : unitExponent (-q) = unitExponent q := by
  simp [unitExponent]

@[simp] theorem unit_neg (q : ℚ) : unit (-q) = unit q := by
  simp [unit]

/-- The exponent of the spacing grows with the magnitude. -/
theorem unitExponent_mono {p q : ℚ} (hp : 0 < |p|) (h : |p| ≤ |q|) :
    unitExponent p ≤ unitExponent q := by
  have := Int.log_mono_right (b := 2) hp h
  unfold unitExponent
  omega

theorem unitExponent_eq {q : ℚ} {e : ℤ} (he : -149 ≤ e) (hlo : 2 ^ (e + 23) ≤ |q|)
    (hhi : |q| < 2 ^ (e + 24)) : unitExponent q = e := by
  have hpos : 0 < |q| := (two_zpow_pos _).trans_le hlo
  have h1 := (Int.zpow_le_iff_le_log (b := 2) (by norm_num) hpos).mp (by exact_mod_cast hlo)
  have h2 := (Int.lt_zpow_iff_log_lt (b := 2) (by norm_num) hpos).mp (by exact_mod_cast hhi)
  unfold unitExponent
  omega

/-- A magnitude below `2^24` spacings of `2^e` has no wider spacing. -/
theorem unitExponent_le {q : ℚ} {e : ℤ} (h0 : q ≠ 0) (he : -149 ≤ e) (h : |q| < 2 ^ (e + 24)) :
    unitExponent q ≤ e := by
  have := (Int.lt_zpow_iff_log_lt (b := 2) (by norm_num) (abs_pos.mpr h0)).mp (by exact_mod_cast h)
  unfold unitExponent
  omega

/-- Every number lies within `2^24` of its spacings. -/
theorem abs_lt_unit (q : ℚ) : |q| < 2 ^ 24 * unit q := by
  have h := Int.lt_zpow_succ_log_self (b := 2) (by norm_num) |q|
  calc |q| < 2 ^ (Int.log 2 |q| + 1) := by exact_mod_cast h
    _ ≤ 2 ^ (24 + unitExponent q) := by
        apply zpow_le_zpow_right₀ (by norm_num)
        unfold unitExponent
        omega
    _ = 2 ^ 24 * unit q := by
        rw [unit, zpow_add₀ (by norm_num)]
        norm_cast

/-- Above the least spacing a number is at least `2^23` of its spacings. -/
theorem unit_le_abs {q : ℚ} (h0 : q ≠ 0) (h : unitExponent q ≠ -149) : 2 ^ 23 * unit q ≤ |q| := by
  have hl := Int.zpow_log_le_self (b := 2) (by norm_num) (abs_pos.mpr h0)
  have he : Int.log 2 |q| = 23 + unitExponent q := by
    unfold unitExponent at h ⊢
    omega
  rw [he] at hl
  unfold unit
  calc (2 : ℚ) ^ 23 * 2 ^ unitExponent q = 2 ^ (23 + unitExponent q) := by
        rw [zpow_add₀ (by norm_num)]
        norm_cast
    _ ≤ |q| := by exact_mod_cast hl

/-! ## Rounding -/

@[simp] theorem nearest_zero : nearest 0 = 0 := by
  simp [nearest]

theorem nearest_neg (q : ℚ) : nearest (-q) = -nearest q := by
  unfold nearest
  rw [unit_neg, neg_div, nearestInt_neg]
  push_cast
  ring

theorem abs_nearestInt_unit_le (q : ℚ) : |nearestInt (q / unit q)| ≤ 2 ^ 24 := by
  have hu := unit_pos q
  have h : |q / unit q| ≤ ((2 ^ 24 : ℤ) : ℚ) := by
    rw [abs_div, abs_of_pos hu, div_le_iff₀ hu]
    exact_mod_cast (abs_lt_unit q).le
  rw [abs_le] at h ⊢
  constructor
  · have := nearestInt_mono h.1
    rwa [← Int.cast_neg, nearestInt_intCast] at this
  · have := nearestInt_mono h.2
    rwa [nearestInt_intCast] at this

theorem nearest_representable (q : ℚ) : Representable (nearest q) :=
  ⟨nearestInt (q / unit q), unitExponent q, abs_nearestInt_unit_le q, unitExponent_ge q, rfl⟩

/-- Rounding moves a number by at most half a spacing. -/
theorem abs_nearest_sub_le (q : ℚ) : |nearest q - q| ≤ unit q / 2 := by
  have hu := unit_pos q
  have h : nearest q - q = (nearestInt (q / unit q) - q / unit q) * unit q := by
    rw [nearest, sub_mul, div_mul_cancel₀ _ hu.ne']
  rw [h, abs_mul, abs_of_pos hu]
  have := mul_le_mul_of_nonneg_right (abs_nearestInt_sub_le (q / unit q)) hu.le
  linarith

/-- A whole number of spacings is its own rounding. -/
theorem nearest_of_eq_mul {q : ℚ} (n : ℤ) (h : q = n * unit q) : nearest q = q := by
  have hd : q / unit q = n := by
    rw [div_eq_iff (unit_pos q).ne']
    exact h
  unfold nearest
  rw [hd, nearestInt_intCast, ← h]

/-- A multiple of a power of two is one of every smaller power. -/
theorem exists_mul_zpow (m : ℤ) {e f : ℤ} (h : f ≤ e) : ∃ n : ℤ, (m : ℚ) * 2 ^ e = n * 2 ^ f := by
  refine ⟨m * 2 ^ (e - f).toNat, ?_⟩
  have he : e = ((e - f).toNat : ℤ) + f := by omega
  conv_lhs => rw [he, zpow_add₀ (by norm_num : (2 : ℚ) ≠ 0)]
  push_cast
  rw [zpow_natCast]
  ring

theorem nearest_of_representable {q : ℚ} (h : Representable q) : nearest q = q := by
  obtain ⟨m, e, hm, he, rfl⟩ := h
  by_cases h0 : m = 0
  · simp [h0]
  have hq : (m : ℚ) * 2 ^ e ≠ 0 := mul_ne_zero (by exact_mod_cast h0) (two_zpow_pos e).ne'
  have habs : |(m : ℚ) * 2 ^ e| = (|m| : ℤ) * 2 ^ e := by
    rw [abs_mul, abs_of_pos (two_zpow_pos e)]
    push_cast
    rfl
  rcases hm.lt_or_eq with hlt | heq
  · have hu : unitExponent ((m : ℚ) * 2 ^ e) ≤ e := by
      apply unitExponent_le hq he
      rw [habs, add_comm, zpow_add₀ (by norm_num)]
      exact mul_lt_mul_of_pos_right (by exact_mod_cast hlt) (two_zpow_pos e)
    obtain ⟨n, hn⟩ := exists_mul_zpow m hu
    exact nearest_of_eq_mul n hn
  · -- `2^24` spacings are `2^23` of the next wider ones
    have hu : unitExponent ((m : ℚ) * 2 ^ e) ≤ e + 1 := by
      apply unitExponent_le hq (by omega)
      rw [habs, heq, show e + 1 + 24 = 25 + e by ring, zpow_add₀ (by norm_num)]
      exact mul_lt_mul_of_pos_right (by norm_num) (two_zpow_pos e)
    obtain ⟨k, hk⟩ : ∃ k, m = k * 2 := by
      rcases abs_eq (by norm_num : (0 : ℤ) ≤ 2 ^ 24) |>.mp heq with h | h
      · exact ⟨2 ^ 23, by rw [h]; norm_num⟩
      · exact ⟨-2 ^ 23, by rw [h]; norm_num⟩
    have hw : (m : ℚ) * 2 ^ e = k * 2 ^ (e + 1) := by
      rw [hk, zpow_add₀ (by norm_num)]
      push_cast
      ring
    obtain ⟨n, hn⟩ := exists_mul_zpow k hu
    exact nearest_of_eq_mul n (hw.trans hn)

/-- A value is a whole number of its spacings. -/
theorem Representable.exists_eq_mul_unit {q : ℚ} (h : Representable q) : ∃ n : ℤ, q = n * unit q :=
  ⟨_, (nearest_of_representable h).symm⟩

/-- Rounding does not pass a whole number of spacings. -/
theorem nearest_le_of_eq_mul {q g : ℚ} (n : ℤ) (hg : g = n * unit q) (h : q ≤ g) : nearest q ≤ g := by
  have hu := unit_pos q
  have hd : q / unit q ≤ n := by rwa [div_le_iff₀ hu, ← hg]
  have hn := nearestInt_mono hd
  rw [nearestInt_intCast] at hn
  unfold nearest
  rw [hg]
  exact mul_le_mul_of_nonneg_right (by exact_mod_cast hn) hu.le

theorem le_nearest_of_eq_mul {q g : ℚ} (n : ℤ) (hg : g = n * unit q) (h : g ≤ q) : g ≤ nearest q := by
  have hu := unit_pos q
  have hd : (n : ℚ) ≤ q / unit q := by rwa [le_div_iff₀ hu, ← hg]
  have hn := nearestInt_mono hd
  rw [nearestInt_intCast] at hn
  unfold nearest
  rw [hg]
  exact mul_le_mul_of_nonneg_right (by exact_mod_cast hn) hu.le

theorem nearest_nonneg {q : ℚ} (h : 0 ≤ q) : 0 ≤ nearest q :=
  le_nearest_of_eq_mul 0 (by simp) h

theorem nearest_nonpos {q : ℚ} (h : q ≤ 0) : nearest q ≤ 0 :=
  nearest_le_of_eq_mul 0 (by simp) h

theorem nearest_mono_of_pos {p q : ℚ} (hp : 0 < p) (h : p ≤ q) : nearest p ≤ nearest q := by
  have hq : 0 < q := hp.trans_le h
  have he : unitExponent p ≤ unitExponent q :=
    unitExponent_mono (abs_pos.mpr hp.ne') (by rwa [abs_of_pos hp, abs_of_pos hq])
  rcases he.lt_or_eq with hlt | heq
  · -- the power of two at which the spacing of `q` begins lies between them
    have hw : unitExponent q ≠ -149 := by
      have := unitExponent_ge p
      omega
    have hg : 2 ^ 23 * unit q ≤ q := by
      have := unit_le_abs hq.ne' hw
      rwa [abs_of_pos hq] at this
    have hb : p ≤ 2 ^ 23 * unit q := by
      have h1 := (abs_lt_unit p).le
      rw [abs_of_pos hp] at h1
      refine h1.trans ?_
      have h2 : (2 : ℚ) ^ (1 + unitExponent p) ≤ 2 ^ unitExponent q :=
        zpow_le_zpow_right₀ (by norm_num) (by omega)
      rw [zpow_add₀ (by norm_num)] at h2
      unfold unit
      norm_num at h2 ⊢
      linarith
    obtain ⟨n, hn⟩ := exists_mul_zpow (2 ^ 23) hlt.le
    calc nearest p ≤ 2 ^ 23 * unit q :=
          nearest_le_of_eq_mul n (by unfold unit; exact_mod_cast hn) hb
      _ ≤ nearest q := le_nearest_of_eq_mul (2 ^ 23) (by norm_num) hg
  · have hu : unit p = unit q := by rw [unit, unit, heq]
    have hd : p / unit p ≤ q / unit q := by
      rw [hu]
      exact div_le_div_of_nonneg_right h (unit_pos q).le
    unfold nearest
    rw [hu] at hd ⊢
    exact mul_le_mul_of_nonneg_right (by exact_mod_cast nearestInt_mono hd) (unit_pos q).le

/-- Rounding keeps order. -/
theorem nearest_mono {p q : ℚ} (h : p ≤ q) : nearest p ≤ nearest q := by
  rcases lt_or_ge 0 p with hp | hp
  · exact nearest_mono_of_pos hp h
  rcases le_or_gt 0 q with hq | hq
  · exact (nearest_nonpos hp).trans (nearest_nonneg hq)
  · have := nearest_mono_of_pos (neg_pos.mpr hq) (neg_le_neg h)
    rw [nearest_neg, nearest_neg] at this
    linarith

/-- A value that bounds `q` bounds its rounding. -/
theorem nearest_le {q g : ℚ} (hg : Representable g) (h : q ≤ g) : nearest q ≤ g := by
  simpa [nearest_of_representable hg] using nearest_mono h

theorem le_nearest {q g : ℚ} (hg : Representable g) (h : g ≤ q) : g ≤ nearest q := by
  simpa [nearest_of_representable hg] using nearest_mono h

theorem abs_nearest (q : ℚ) : |nearest q| = nearest |q| := by
  rcases le_total 0 q with h | h
  · rw [abs_of_nonneg h, abs_of_nonneg (nearest_nonneg h)]
  · rw [abs_of_nonpos h, abs_of_nonpos (nearest_nonpos h), nearest_neg]

theorem abs_nearest_le {q g : ℚ} (hg : Representable g) (h : |q| ≤ g) : |nearest q| ≤ g := by
  rw [abs_nearest]
  exact nearest_le hg h

/-! ## Multiples of a power of two -/

/-- `q` is a whole number of `2^e`. -/
def IsMultiple (e : ℤ) (q : ℚ) : Prop := ∃ n : ℤ, q = n * 2 ^ e

section IsMultiple
variable {e f : ℤ} {p q : ℚ}

theorem isMultiple_intCast (n : ℤ) : IsMultiple 0 n := ⟨n, by rw [zpow_zero, mul_one]⟩

theorem IsMultiple.of_le (h : IsMultiple e q) (hf : f ≤ e) : IsMultiple f q := by
  obtain ⟨n, rfl⟩ := h
  exact exists_mul_zpow n hf

theorem IsMultiple.add (hp : IsMultiple e p) (hq : IsMultiple e q) : IsMultiple e (p + q) := by
  obtain ⟨m, rfl⟩ := hp
  obtain ⟨n, rfl⟩ := hq
  exact ⟨m + n, by push_cast; ring⟩

theorem IsMultiple.sub (hp : IsMultiple e p) (hq : IsMultiple e q) : IsMultiple e (p - q) := by
  obtain ⟨m, rfl⟩ := hp
  obtain ⟨n, rfl⟩ := hq
  exact ⟨m - n, by push_cast; ring⟩

theorem IsMultiple.mul (hp : IsMultiple e p) (hq : IsMultiple f q) : IsMultiple (e + f) (p * q) := by
  obtain ⟨m, rfl⟩ := hp
  obtain ⟨n, rfl⟩ := hq
  exact ⟨m * n, by rw [zpow_add₀ (by norm_num)]; push_cast; ring⟩

/-- Multiples that are not zero are not less than the power. -/
theorem IsMultiple.le_abs (h : IsMultiple e q) (h0 : q ≠ 0) : 2 ^ e ≤ |q| := by
  obtain ⟨n, rfl⟩ := h
  have hn : n ≠ 0 := by
    rintro rfl
    simp at h0
  have h1 : (1 : ℚ) ≤ |(n : ℚ)| := by exact_mod_cast Int.one_le_abs hn
  rw [abs_mul, abs_of_pos (two_zpow_pos e)]
  exact le_mul_of_one_le_left (two_zpow_pos e).le h1

/-- Multiples that differ do so by at least the power. -/
theorem IsMultiple.le_sub (hp : IsMultiple e p) (hq : IsMultiple e q) (h : p < q) :
    2 ^ e ≤ q - p := by
  have hpos : 0 < q - p := sub_pos.mpr h
  have hle := (hq.sub hp).le_abs hpos.ne'
  rwa [abs_of_pos hpos] at hle

/-- Rounding keeps multiples: it leaves those of the spacing as they are and
makes the others multiples of a wider spacing. -/
theorem IsMultiple.nearest (h : IsMultiple e q) : IsMultiple e (nearest q) := by
  rcases le_total (unitExponent q) e with hle | hle
  · obtain ⟨n, hn⟩ := h.of_le hle
    rw [nearest_of_eq_mul n hn]
    exact h
  · exact IsMultiple.of_le ⟨nearestInt (q / unit q), rfl⟩ hle

/-- Numbers that are not too small are rounded to multiples. -/
theorem isMultiple_nearest_of_le (h : 2 ^ (e + 23) ≤ |q|) : IsMultiple e (nearest q) := by
  have hpos : 0 < |q| := (two_zpow_pos _).trans_le h
  have hlog := (Int.zpow_le_iff_le_log (b := 2) (by norm_num) hpos).mp (by exact_mod_cast h)
  refine IsMultiple.of_le ⟨nearestInt (q / unit q), rfl⟩ ?_
  unfold unitExponent
  omega

/-- Values that are not too small are multiples. -/
theorem Representable.isMultiple_of_le (hq : Representable q) (h : 2 ^ (e + 23) ≤ |q|) :
    IsMultiple e q := by
  have hmul := isMultiple_nearest_of_le h
  rwa [nearest_of_representable hq] at hmul

/-- Every value is a multiple of the least spacing. -/
theorem Representable.isMultiple (h : Representable q) : IsMultiple (-149) q := by
  obtain ⟨m, e, -, he, rfl⟩ := h
  exact exists_mul_zpow m he

/-- A value above zero is at least the least spacing. -/
theorem Representable.least_le (h : Representable q) (hpos : 0 < q) : 1 / 2 ^ 149 ≤ q := by
  have hle := h.isMultiple.le_abs hpos.ne'
  rw [abs_of_pos hpos, zpow_neg, ← one_div] at hle
  exact_mod_cast hle

end IsMultiple

/-! ## The nearest value -/

/-- A value is a whole number of the spacings around `q`, unless it is nearer to zero than all
numbers with these spacings. -/
theorem Representable.isMultiple_or_lt {r q : ℚ} (hr : Representable r) (hq : q ≠ 0) :
    IsMultiple (unitExponent q) r ∨ |r| < 2 ^ 23 * unit q ∧ 2 ^ 23 * unit q ≤ |q| := by
  by_cases he : unitExponent q = -149
  · exact .inl (he ▸ hr.isMultiple)
  · rcases le_or_gt (2 ^ 23 * unit q) |r| with hle | hlt
    · refine .inl (hr.isMultiple_of_le ?_)
      rw [add_comm, zpow_add₀ (by norm_num)]
      exact_mod_cast hle
    · exact .inr ⟨hlt, unit_le_abs hq he⟩

/-- No value is nearer. -/
theorem abs_nearest_sub_le_abs_sub (q : ℚ) {r : ℚ} (hr : Representable r) :
    |nearest q - q| ≤ |r - q| := by
  by_cases hq : q = 0
  · rw [hq, nearest_zero, sub_self, abs_zero]
    exact abs_nonneg _
  have hu := unit_pos q
  obtain ⟨n, hn⟩ : ∃ n : ℤ, |n * unit q - q| ≤ |r - q| := by
    obtain ⟨n, hn⟩ | ⟨hlt, hle⟩ := hr.isMultiple_or_lt hq
    · exact ⟨n, by rw [hn]; rfl⟩
    · -- the least multiple with these spacings lies between the value and `q`
      obtain ⟨hlo, hhi⟩ := abs_lt.mp hlt
      rcases abs_cases q with ⟨habs, -⟩ | ⟨habs, -⟩
      · refine ⟨2 ^ 23, ?_⟩
        push_cast
        rw [abs_of_nonpos (by linarith), abs_of_nonpos (by linarith)]
        linarith
      · refine ⟨-2 ^ 23, ?_⟩
        push_cast
        rw [abs_of_nonneg (by linarith), abs_of_nonneg (by linarith)]
        linarith
  have hscale (k : ℤ) : |k * unit q - q| = |k - q / unit q| * unit q := by
    rw [← abs_of_pos hu, ← abs_mul, abs_of_pos hu, sub_mul, div_mul_cancel₀ _ hu.ne']
  refine le_trans ?_ hn
  rw [nearest, hscale, hscale]
  exact mul_le_mul_of_nonneg_right (abs_nearestInt_sub_le_of_int _ n) hu.le

/-! ## Values -/

theorem Representable.neg {q : ℚ} (h : Representable q) : Representable (-q) := by
  obtain ⟨m, e, hm, he, rfl⟩ := h
  exact ⟨-m, e, by rwa [abs_neg], he, by push_cast; ring⟩

theorem representable_zpow {e : ℤ} (he : -149 ≤ e) : Representable (2 ^ e) :=
  ⟨1, e, by norm_num, he, by simp⟩

/-- Whole numbers of at most 24 bits, divided by a power of two. -/
theorem representable_div_two_pow (m : ℤ) {k : ℕ} (hm : |m| ≤ 2 ^ 24) (hk : k ≤ 149) :
    Representable (m / 2 ^ k) := by
  refine ⟨m, -k, hm, by omega, ?_⟩
  rw [zpow_neg, zpow_natCast]
  rfl

theorem representable_intCast {m : ℤ} (hm : |m| ≤ 2 ^ 24) : Representable m := by
  simpa using representable_div_two_pow m hm (Nat.zero_le 149)

theorem nearest_natCast {n : ℕ} (h : n ≤ 2 ^ 24) : nearest n = n := by
  have : Representable ((n : ℤ) : ℚ) := representable_intCast (by rw [Nat.abs_cast]; exact_mod_cast h)
  exact nearest_of_representable (by simpa using this)

/-- A difference of values rounds to zero only if it is zero. -/
theorem nearest_sub_pos {p q : ℚ} (hp : Representable p) (hq : Representable q) :
    0 < nearest (q - p) ↔ p < q := by
  constructor
  · intro h
    by_contra hle
    have := nearest_nonpos (q := q - p) (by linarith)
    linarith
  · intro h
    have := le_nearest (representable_zpow (by norm_num)) (hp.isMultiple.le_sub hq.isMultiple h)
    exact (two_zpow_pos (-149)).trans_le this

theorem nearest_sub_eq_zero {p q : ℚ} (hp : Representable p) (hq : Representable q) :
    nearest (q - p) = 0 ↔ q = p := by
  constructor
  · intro h
    have h1 : ¬ p < q := fun hlt => ((nearest_sub_pos hp hq).mpr hlt).ne' h
    have h2 : ¬ q < p := fun hlt => by
      have := (nearest_sub_pos hq hp).mpr hlt
      rw [← neg_sub, nearest_neg, h] at this
      norm_num at this
    exact le_antisymm (not_lt.mp h1) (not_lt.mp h2)
  · rintro rfl
    rw [sub_self, nearest_zero]

end TileCompositor.Binary32
