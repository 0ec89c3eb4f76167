import TileCompositor.Proofs.Binary32.Value
/-!
# The error of rounded arithmetic

`Near x q ε`: the value `x` is finite and differs from the number `q` by at
most `ε`. An operation hands on the errors of its operands and adds that of one
rounding, which is at most half the spacing of the values below a power of two
that bounds the result.

Results:
* `abs_nearest_sub_le_of_lt`, `abs_nearest_sub_le_part`: the error of one rounding.
* `Near.add`, `Near.sub`, `Denotes.near_mul`, `Denotes.near_div`: the error of an operation.
* `Denotes.near_add`: what a small number does to a value of any size.
-/
namespace TileCompositor.Binary32

/-- `x` is finite and stands for a number within `ε` of `q`. -/
def Near (x : Float32) (q ε : ℚ) : Prop := ∃ p, Denotes x p ∧ |p - q| ≤ ε

variable {x y : Float32} {p q ε δ : ℚ} {k : ℤ}

/-! ## One rounding -/

/-- Numbers below `2^k` are rounded by at most `2^(k-25)`. -/
theorem abs_nearest_sub_le_of_lt (hk : -125 ≤ k) (h : |q| < 2 ^ k) :
    |nearest q - q| ≤ 2 ^ (k - 25) := by
  by_cases h0 : q = 0
  · rw [h0, nearest_zero, sub_self, abs_zero]
    exact (two_zpow_pos _).le
  · have hexp : unitExponent q ≤ k - 24 := unitExponent_le h0 (by omega) (by rwa [sub_add_cancel])
    have hunit : unit q ≤ 2 ^ (k - 24) := zpow_le_zpow_right₀ (by norm_num) hexp
    have hhalf : (2 : ℚ) ^ (k - 24) = 2 ^ (k - 25) * 2 := by
      rw [← zpow_add_one₀ (by norm_num)]
      congr 1
      omega
    have herr := abs_nearest_sub_le q
    linarith

/-- Numbers from zero to one are rounded by 2^-24 at most. -/
theorem abs_nearest_sub_le_of_unit (h0 : 0 ≤ q) (h1 : q ≤ 1) : |nearest q - q| ≤ 2 ^ (-24 : ℤ) := by
  refine abs_nearest_sub_le_of_lt (k := 1) (by norm_num) ?_
  rw [abs_of_nonneg h0]
  exact h1.trans_lt (by norm_num)

/-- A number is rounded by at most one part in 2^24 or, if that is more, half the least spacing. -/
theorem abs_nearest_sub_le_part (q : ℚ) : |nearest q - q| ≤ |q| / 2 ^ 24 + 1 / 2 ^ 150 := by
  by_cases h0 : q = 0
  · rw [h0, nearest_zero, sub_self, abs_zero]
    positivity
  have herr := abs_nearest_sub_le q
  by_cases hexp : unitExponent q = -149
  · have hunit : unit q = 1 / 2 ^ 149 := by rw [unit, hexp, zpow_neg, one_div]; rfl
    have hq : 0 ≤ |q| / 2 ^ 24 := by positivity
    rw [hunit] at herr
    linarith
  · have hunit := unit_le_abs h0 hexp
    linarith

/-- Nothing is rounded to more than twice of what it was. -/
theorem nearest_le_two_mul (h : 0 ≤ q) : nearest q ≤ 2 * q := by
  have hnear := abs_nearest_sub_le_abs_sub q denotes_zero.representable
  rw [zero_sub, abs_neg, abs_of_nonneg h] at hnear
  linarith [(abs_le.mp hnear).2]

theorem abs_nearest_lt_of_lt (hk : -149 ≤ k) (hk' : k ≤ 127) (h : |q| < 2 ^ k) :
    |nearest q| < 2 ^ 128 := by
  have hlt : (2 : ℚ) ^ k < 2 ^ (128 : ℤ) := zpow_lt_zpow_right₀ (by norm_num) (by omega)
  exact (abs_nearest_le (representable_zpow hk) h.le).trans_lt (by exact_mod_cast hlt)

/-- What a rounded operation gives whose exact result `p` is within `ε` of `q`. -/
theorem near_of_nearest {z : Float32} (hz : |nearest p| < 2 ^ 128 → Denotes z (nearest p))
    (hk : -125 ≤ k) (hk' : k ≤ 127) (hp : |p - q| ≤ ε) (h : |q| + ε < 2 ^ k) :
    Near z q (ε + 2 ^ (k - 25)) := by
  have hlt : |p| < 2 ^ k := by
    have htri : |p| ≤ |q| + |p - q| := by simpa using abs_add_le q (p - q)
    linarith
  refine ⟨_, hz (abs_nearest_lt_of_lt (by omega) hk' hlt), ?_⟩
  have herr := abs_nearest_sub_le_of_lt hk hlt
  calc |nearest p - q| ≤ |nearest p - p| + |p - q| := abs_sub_le _ _ _
    _ ≤ ε + 2 ^ (k - 25) := by linarith

/-! ## Operations -/

theorem Denotes.near (hx : Denotes x q) : Near x q 0 := ⟨q, hx, by rw [sub_self, abs_zero]⟩

theorem Near.mono (hx : Near x q ε) (h : ε ≤ δ) : Near x q δ := by
  obtain ⟨p, hp, hle⟩ := hx
  exact ⟨p, hp, hle.trans h⟩

/-- Values that compare as equal are equally near. -/
theorem Near.of_beq (hy : Near y q ε) (h : (x == y) = true) : Near x q ε := by
  obtain ⟨p, hp, hle⟩ := hy
  exact ⟨p, hp.of_beq h, hle⟩

theorem Near.add (hx : Near x p ε) (hy : Near y q δ) (hk : -125 ≤ k) (hk' : k ≤ 127)
    (h : |p + q| + (ε + δ) < 2 ^ k) : Near (x + y) (p + q) (ε + δ + 2 ^ (k - 25)) := by
  obtain ⟨p', hp, hpe⟩ := hx
  obtain ⟨q', hq, hqe⟩ := hy
  refine near_of_nearest (hp.add hq) hk hk' ?_ h
  rw [add_sub_add_comm]
  exact (abs_add_le _ _).trans (add_le_add hpe hqe)

theorem Near.sub (hx : Near x p ε) (hy : Near y q δ) (hk : -125 ≤ k) (hk' : k ≤ 127)
    (h : |p - q| + (ε + δ) < 2 ^ k) : Near (x - y) (p - q) (ε + δ + 2 ^ (k - 25)) := by
  obtain ⟨p', hp, hpe⟩ := hx
  obtain ⟨q', hq, hqe⟩ := hy
  refine near_of_nearest (hp.sub hq) hk hk' ?_ h
  rw [sub_sub_sub_comm]
  exact (abs_sub _ _).trans (add_le_add hpe hqe)

/-- An exact factor multiplies the error of the other one. -/
theorem Denotes.near_mul (hx : Denotes x p) (hy : Near y q δ) (hk : -125 ≤ k) (hk' : k ≤ 127)
    (h : |p * q| + |p| * δ < 2 ^ k) : Near (x * y) (p * q) (|p| * δ + 2 ^ (k - 25)) := by
  obtain ⟨q', hq, hqe⟩ := hy
  refine near_of_nearest (hx.mul hq) hk hk' ?_ h
  rw [← mul_sub, abs_mul]
  exact mul_le_mul_of_nonneg_left hqe (abs_nonneg p)

/-- A quotient of exact operands. -/
theorem Denotes.near_div (hx : Denotes x p) (hy : Denotes y q) (h0 : q ≠ 0) (hk : -125 ≤ k)
    (hk' : k ≤ 127) (h : |p / q| < 2 ^ k) : Near (x / y) (p / q) (2 ^ (k - 25)) := by
  have hnear : Near (x / y) (p / q) (0 + 2 ^ (k - 25)) :=
    near_of_nearest (hx.div hy h0) hk hk' (by rw [sub_self, abs_zero]) (by rwa [add_zero])
  rwa [zero_add] at hnear

/-! ## Small operands -/

/-- Below 2^128 the greatest value is one spacing away from it. -/
theorem Denotes.abs_le_greatest (hx : Denotes x q) : |q| ≤ 2 ^ 128 - 2 ^ 104 := by
  by_contra hlt
  rw [not_le] at hlt
  have hmul : IsMultiple 104 |q| := by
    refine hx.representable.abs.isMultiple_of_le ?_
    rw [abs_abs]
    exact (by norm_num : (2 : ℚ) ^ ((104 : ℤ) + 23) ≤ 2 ^ 128 - 2 ^ 104).trans hlt.le
  have hbound : IsMultiple 104 (2 ^ 128) := ⟨2 ^ 24, by norm_num⟩
  have hgap := hmul.le_sub hbound hx.abs_lt
  rw [show (2 : ℚ) ^ (104 : ℤ) = 2 ^ 104 by norm_cast] at hgap
  linarith

/-- What is added to a value moves it by at most twice its size: the value itself is that near to the
sum, and no value is nearer than the one that is taken. -/
theorem Denotes.near_add (hx : Denotes x p) (hy : Denotes y q) (hq : |q| ≤ 1) :
    Near (x + y) p (2 * |q|) := by
  have hmoved : |nearest (p + q) - p| ≤ 2 * |q| := by
    have hnear := abs_nearest_sub_le_abs_sub (p + q) hx.representable
    rw [sub_add_cancel_left, abs_neg] at hnear
    calc |nearest (p + q) - p| ≤ |nearest (p + q) - (p + q)| + |p + q - p| := abs_sub_le _ _ _
      _ ≤ 2 * |q| := by rw [add_sub_cancel_left]; linarith
  have hsmall : |nearest (p + q)| < 2 ^ 128 := by
    have htri : |nearest (p + q)| ≤ |p| + |nearest (p + q) - p| := by
      simpa using abs_add_le p (nearest (p + q) - p)
    have := hx.abs_le_greatest
    linarith
  exact ⟨_, hx.add hy hsmall, hmoved⟩

end TileCompositor.Binary32
