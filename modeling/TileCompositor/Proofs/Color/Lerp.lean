import TileCompositor.Proofs.Color.Numbers
/-!
# Linear interpolation, as rounded

A channel on the way from one colour to another is the first value plus the
difference times a factor, which takes three roundings. With a factor between
zero and one the way does not lead out of the range from zero to one, because
rounding keeps order; at its start it gives the first colour and at its end the
second one, up to two roundings.

Results:
* `Color.InUnit.lerp`: the range.
* `Color.lerp_same`: between equal colours.
* `Color.lerp_start`, `Color.close_lerp_end`: the ends of the way.
-/
namespace TileCompositor
open Binary32

/-! ## Channels -/

section Channel
variable {x y t : Float32} {p q u : ℚ}

theorem abs_sub_le_one (hx : DenotesUnit x p) (hy : DenotesUnit y q) : |q - p| ≤ 1 :=
  abs_le.mpr ⟨by linarith [hy.nonneg, hx.le_one], by linarith [hy.le_one, hx.nonneg]⟩

theorem abs_nearest_lt_of_le_one (h : |q| ≤ 1) : |nearest q| < 2 ^ 128 :=
  (abs_nearest_le representable_one h).trans_lt (by norm_num)

/-- The difference of two values between zero and one. -/
theorem denotes_sub_unit (hx : DenotesUnit x p) (hy : DenotesUnit y q) :
    Denotes (y - x) (nearest (q - p)) :=
  hy.denotes.sub hx.denotes (abs_nearest_lt_of_le_one (abs_sub_le_one hx hy))

/-- A part of the way from one number to a larger one. -/
theorem step_up (hp0 : 0 ≤ p) (hp1 : p ≤ 1) (hq : q ≤ 1) (hpq : p ≤ q) (hu0 : 0 ≤ u) (hu1 : u ≤ 1) :
    0 ≤ nearest (p + nearest (nearest (q - p) * u)) ∧
      nearest (p + nearest (nearest (q - p) * u)) ≤ 1 := by
  have hd : 0 ≤ nearest (q - p) := nearest_nonneg (by linarith)
  have hpart : nearest (nearest (q - p) * u) ≤ nearest (q - p) :=
    nearest_le (nearest_representable _) (mul_le_of_le_one_right hd hu1)
  have hrest : nearest (q - p) ≤ nearest (1 - p) := nearest_mono (by linarith)
  -- what is added is at most the rounded distance to one, and all of that leads to one exactly
  constructor
  · exact nearest_nonneg (add_nonneg hp0 (nearest_nonneg (mul_nonneg hd hu0)))
  · calc nearest (p + nearest (nearest (q - p) * u)) ≤ nearest (p + nearest (1 - p)) :=
        nearest_mono (by linarith)
      _ = 1 := nearest_add_nearest_sub hp0 hp1

/-- A part of the way to a smaller one. -/
theorem step_down (hp : Representable p) (hp1 : p ≤ 1) (hq : 0 ≤ q) (hqp : q ≤ p) (hu0 : 0 ≤ u)
    (hu1 : u ≤ 1) :
    0 ≤ nearest (p + nearest (nearest (q - p) * u)) ∧
      nearest (p + nearest (nearest (q - p) * u)) ≤ 1 := by
  have hd : nearest (q - p) ≤ 0 := nearest_nonpos (by linarith)
  have hd' : -p ≤ nearest (q - p) := le_nearest hp.neg (by linarith)
  have hpart : -p ≤ nearest (nearest (q - p) * u) :=
    le_nearest hp.neg (hd'.trans (le_mul_of_le_one_right hd hu1))
  have hpart' : nearest (nearest (q - p) * u) ≤ 0 := nearest_nonpos (mul_nonpos_of_nonpos_of_nonneg hd hu0)
  exact ⟨nearest_nonneg (by linarith), nearest_le representable_one (by linarith)⟩

theorem inUnit_lerp (hx : Scalar.InUnit x) (hy : Scalar.InUnit y) (ht : Scalar.InUnit t) :
    Scalar.InUnit (x + (y - x) * t) := by
  obtain ⟨p, hp⟩ := inUnit_iff.mp hx
  obtain ⟨q, hq⟩ := inUnit_iff.mp hy
  obtain ⟨u, hu⟩ := inUnit_iff.mp ht
  have hunit : 0 ≤ nearest (p + nearest (nearest (q - p) * u)) ∧
      nearest (p + nearest (nearest (q - p) * u)) ≤ 1 := by
    rcases le_total p q with h | h
    · exact step_up hp.nonneg hp.le_one hq.le_one h hu.nonneg hu.le_one
    · exact step_down hp.denotes.representable hp.le_one hq.nonneg h hu.nonneg hu.le_one
  have hpart : |nearest (q - p) * u| ≤ 1 := by
    rw [abs_mul, abs_of_nonneg hu.nonneg]
    exact mul_le_one₀ (abs_nearest_le representable_one (abs_sub_le_one hp hq)) hu.nonneg hu.le_one
  have hsum : |nearest (p + nearest (nearest (q - p) * u))| < 2 ^ 128 := by
    rw [abs_of_nonneg hunit.1]
    exact hunit.2.trans_lt (by norm_num)
  have hstep := (denotes_sub_unit hp hq).mul hu.denotes (abs_nearest_lt_of_le_one hpart)
  exact inUnit_iff.mpr ⟨_, hp.denotes.add hstep hsum, hunit.1, hunit.2⟩

/-- Between equal values there is nothing else. -/
theorem denotes_lerp_same (hx : Denotes x p) (hy : Denotes y p) (ht : t.isFinite = true) :
    Denotes (x + (y - x) * t) p := by
  obtain ⟨u, hu⟩ := isFinite_iff.mp ht
  exact denotes_add_zero hx (denotes_zero_mul (denotes_sub_self hy hx) hu)

/-- The start of the way. -/
theorem denotes_lerp_zero (hx : DenotesUnit x p) (hy : DenotesUnit y q) (ht : Denotes t 0) :
    Denotes (x + (y - x) * t) p :=
  denotes_add_zero hx.denotes (denotes_mul_zero (denotes_sub_unit hx hy) ht)

/-- At the end of the way the difference and the sum are rounded. -/
theorem near_lerp_one (hx : DenotesUnit x p) (hy : DenotesUnit y q) (ht : Denotes t 1) :
    Near (x + (y - x) * t) q (2 ^ (-23 : ℤ)) := by
  have hdiff : Near (y - x) (q - p) (0 + 0 + 2 ^ (1 - 25 : ℤ)) := by
    refine hy.denotes.near.sub hx.denotes.near (by norm_num) (by norm_num) ?_
    exact (add_le_add_left (abs_sub_le_one hx hy) _).trans_lt (by norm_num)
  obtain ⟨d, hd, hde⟩ := hdiff
  have hstep : Near ((y - x) * t) (q - p) (2 ^ (-24 : ℤ)) :=
    ⟨d, denotes_mul_one hd ht, hde.trans (by norm_num)⟩
  have hsum := hx.denotes.near.add hstep (k := 1) (by norm_num) (by norm_num) (by
    rw [add_sub_cancel, abs_of_nonneg hy.nonneg]
    exact (add_le_add_left hy.le_one _).trans_lt (by norm_num))
  rw [add_sub_cancel] at hsum
  exact hsum.mono (by norm_num)

end Channel

/-! ## Colours -/

namespace Color
variable {c d e : Color} {t : Float32}

theorem InUnit.lerp (hc : c.InUnit) (hd : d.InUnit) (ht : Scalar.InUnit t) : (c.lerp d t).InUnit :=
  ⟨inUnit_lerp hc.r hd.r ht, inUnit_lerp hc.g hd.g ht, inUnit_lerp hc.b hd.b ht,
    inUnit_lerp hc.a hd.a ht⟩

/-- Between equal colours there is no other one. -/
theorem lerp_same (he : e.isFinite = true) (hc : (c == e) = true) (hd : (d == e) = true)
    (ht : t.isFinite = true) : (c.lerp d t == e) = true := by
  obtain ⟨r, g, b, a, he⟩ := exists_denotes he
  have hc := he.of_beq hc
  have hd := he.of_beq hd
  have hlerp : (c.lerp d t).Denotes r g b a :=
    ⟨denotes_lerp_same hc.r hd.r ht, denotes_lerp_same hc.g hd.g ht, denotes_lerp_same hc.b hd.b ht,
      denotes_lerp_same hc.a hd.a ht⟩
  exact hlerp.beq he

/-- The way starts with the first colour. -/
theorem lerp_start (hc : c.InUnit) (hd : d.InUnit) (ht : Binary32.Denotes t 0) :
    (c.lerp d t == c) = true := by
  have start {x y : Float32} (hx : Scalar.InUnit x) (hy : Scalar.InUnit y) :
      (x + (y - x) * t == x) = true := by
    obtain ⟨p, hp⟩ := inUnit_iff.mp hx
    obtain ⟨q, hq⟩ := inUnit_iff.mp hy
    exact (denotes_lerp_zero hp hq ht).beq hp.denotes
  exact beq_iff.mpr ⟨start hc.r hd.r, start hc.g hd.g, start hc.b hd.b, start hc.a hd.a⟩

/-- It ends next to the second. -/
theorem close_lerp_end (hc : c.InUnit) (hd : d.InUnit) (ht : Binary32.Denotes t 1) :
    (c.lerp d t).Close d (2 ^ (-23 : ℤ)) := by
  have finish {x y : Float32} (hx : Scalar.InUnit x) (hy : Scalar.InUnit y) :
      ∃ q, Binary32.Denotes y q ∧ Near (x + (y - x) * t) q (2 ^ (-23 : ℤ)) := by
    obtain ⟨p, hp⟩ := inUnit_iff.mp hx
    obtain ⟨q, hq⟩ := inUnit_iff.mp hy
    exact ⟨q, hq.denotes, near_lerp_one hp hq ht⟩
  exact ⟨finish hc.r hd.r, finish hc.g hd.g, finish hc.b hd.b, finish hc.a hd.a⟩

end Color

end TileCompositor
