import TileCompositor.Proofs.Binary32.SignedZero
import TileCompositor.Proofs.Gradient.Sampling
import TileCompositor.Proofs.Gradient.Tiling
/-!
# Tiles and ramps repeat exactly

The offset of a position depends on its remainder alone. The remainder is
exact, and the one correction that is rounded gives a negative remainder the
value that a position above zero has without it, so positions that differ by
whole periods have the same remainder up to the sign of zero, and the same
offset or none.

The period of a ramp is one. The floor of an offset is exact and only its
fraction is rounded, so offsets that are a whole number apart lead to the very
same place in the ramp.

Results:
* `euclidMod_periodic`: remainders of values that are whole periods apart.
* `offsetAt_periodic`: offsets of positions that are whole periods apart.
* `sample_periodic`: lookups at offsets that are a whole number apart.
-/
namespace TileCompositor
open Binary32

/-- The values are finite and differ by a whole multiple of the period. -/
def PeriodsApart (period a b : Float32) : Prop :=
  ∃ s p, ∃ k : ℤ, Denotes period s ∧ Denotes a p ∧ Denotes b (p + k * s)

theorem euclidMod_periodic {a b period : Float32} (hpos : 0.0 < period) (h : PeriodsApart period a b) :
    SameNumber (Scalar.euclidMod a period) (Scalar.euclidMod b period) := by
  obtain ⟨s, p, k, hs, ha, hb⟩ := h
  have hs0 : 0 < s := (denotes_zero.lt_iff hs).mp hpos
  have hmod := Scalar.denotes_euclidMod hb hs hs0.ne'
  rw [Scalar.periodic_add_mul ha hs hs0 k hb] at hmod
  exact (Scalar.denotes_euclidMod ha hs hs0.ne').sameNumber hmod

/-- Positions that differ on both axes by whole multiples of the period have no
offset both, or both have the same one; NaN counts as the same as NaN. -/
theorem offsetAt_periodic {g : GradientField} {p q : Vec2} (hperiod : TileSize g.tile.period)
    (hx : PeriodsApart g.tile.period.x p.x q.x) (hy : PeriodsApart g.tile.period.y p.y q.y) :
    g.offsetAt p = none ∧ g.offsetAt q = none ∨
      ∃ a b, g.offsetAt p = some a ∧ g.offsetAt q = some b ∧
        ((a == b) = true ∨ a.isNaN = true ∧ b.isNaN = true) := by
  have hmodx := euclidMod_periodic hperiod.x_pos hx
  have hmody := euclidMod_periodic hperiod.y_pos hy
  have hgap : (g.tile.size.x ≤ Scalar.euclidMod p.x g.tile.period.x ||
      g.tile.size.y ≤ Scalar.euclidMod p.y g.tile.period.y) =
      (g.tile.size.x ≤ Scalar.euclidMod q.x g.tile.period.x ||
        g.tile.size.y ≤ Scalar.euclidMod q.y g.tile.period.y) :=
    congrArg₂ or (decide_eq_decide.mpr (hmodx.le_iff _)) (decide_eq_decide.mpr (hmody.le_iff _))
  by_cases hin : (g.tile.size.x ≤ Scalar.euclidMod p.x g.tile.period.x ||
      g.tile.size.y ≤ Scalar.euclidMod p.y g.tile.period.y) = true
  · exact .inl ⟨if_pos hin, if_pos (hgap ▸ hin)⟩
  · refine .inr ⟨_, _, if_neg hin, if_neg (hgap ▸ hin), SameNumber.beq_or_isNaN ?_⟩
    exact ((hmodx.sub_right g.start.x).mul_right g.scaledDirection.x).add
      ((hmody.sub_right g.start.y).mul_right g.scaledDirection.y)

/-- Tiles of one by one at a distance of two, with a gradient to the right. -/
def spacedTiles : GradientField where
  tile := ⟨⟨1.0, 1.0⟩, ⟨2.0, 2.0⟩⟩
  start := ⟨0.0, 0.0⟩
  scaledDirection := ⟨1.0, 0.0⟩
  rampRow := 0
  extend := .clamp

/-- Left of zero and above it the offset is that in the first tile. -/
theorem spacedTiles_repeat :
    PeriodsApart 2.0 0.5 (-1.5) ∧ PeriodsApart 2.0 0.0 (-2.0) ∧
      ∃ b, spacedTiles.offsetAt ⟨-1.5, -2.0⟩ = some b ∧ (0.5 == b) = true := by
  have hsize : TileSize spacedTiles.tile.period := ⟨by decide +kernel, by decide +kernel, by decide +kernel⟩
  have hminus : Denotes (-1.5) (1 / 2 + (-1 : ℤ) * 2) := by
    have h := (denotes_of_view (x := 1.5) (3 * 2 ^ 22) (-23) ⟨by decide, rfl⟩).neg
    norm_num at h ⊢
    exact h
  have hx : PeriodsApart 2.0 0.5 (-1.5) := ⟨2, 1 / 2, -1, denotes_two, denotes_half, hminus⟩
  have hy : PeriodsApart 2.0 0.0 (-2.0) := by
    refine ⟨2, 0, -1, denotes_two, denotes_zero, ?_⟩
    have h := denotes_two.neg
    norm_num at h ⊢
    exact h
  refine ⟨hx, hy, ?_⟩
  have hfirst : spacedTiles.offsetAt ⟨0.5, 0.0⟩ = some 0.5 := by decide +kernel
  obtain ⟨hnone, -⟩ | ⟨a, b, ha, hb, hsame⟩ :=
    offsetAt_periodic (g := spacedTiles) (p := ⟨0.5, 0.0⟩) (q := ⟨-1.5, -2.0⟩) hsize hx hy
  · rw [hfirst] at hnone
    cases hnone
  · obtain rfl := Option.some.inj (hfirst.symm.trans ha)
    exact ⟨b, hb, hsame.resolve_right fun h => absurd h.1 (by decide +kernel)⟩

/-! ## Ramps -/

/-- A value without a fraction is its own floor, the sign of zero included. -/
theorem Scalar.floor_eq_self {t : Float32} {n : ℤ} (h : Denotes t n) : Scalar.floor t = t := by
  by_cases h0 : n = 0
  · rw [h0, Int.cast_zero] at h
    rcases eq_of_denotes_zero h with rfl | rfl <;> decide
  · have hfloor := Scalar.denotes_floor h
    rw [Int.floor_intCast] at hfloor
    exact hfloor.eq h (by exact_mod_cast h0)

theorem Extend.periodic_of_intCast {t : Float32} {n : ℤ} (h : Denotes t n) :
    Extend.periodic.apply t = 0.0 := by
  rw [apply, Scalar.floor_eq_self h]
  exact sub_self_eq_zero h.isFinite

/-- A whole number makes no difference to the offset in the period, not even to the sign of zero. -/
theorem Extend.periodic_add_int {t t' : Float32} {q : ℚ} {k : ℤ} (ht : Denotes t q)
    (ht' : Denotes t' (q + k)) : Extend.periodic.apply t' = Extend.periodic.apply t := by
  have hperiodic := (denotesUnit_periodic ht').denotes
  rw [Int.fract_add_intCast] at hperiodic
  by_cases hwhole : nearest (Int.fract q) = 0
  · have hfloor := (Scalar.denotes_floor ht).representable
    have hq : q = ⌊q⌋ := (nearest_sub_eq_zero hfloor ht.representable).mp hwhole
    rw [hq] at ht ht'
    rw [periodic_of_intCast ht, periodic_of_intCast (n := ⌊q⌋ + k) (by exact_mod_cast ht')]
  · exact hperiodic.eq (denotesUnit_periodic ht).denotes hwhole

namespace GradientRamps

/-- Looked up periodically, a ramp has the same colour at offsets that are a whole number apart. The
offsets in the period are the same value, so nothing that is computed from them differs, a channel
that overflows included. -/
theorem sample_periodic {t t' : Float32} (h : PeriodsApart 1.0 t t') :
    Extend.periodic.apply t' = Extend.periodic.apply t ∧
      (Extend.periodic.apply t' == Extend.periodic.apply t) = true ∧
      ∀ (r : GradientRamps) (index : UInt32), index.toNat < r.rows.size →
        ∃ c, r.sample index t .periodic = .ok c ∧ r.sample index t' .periodic = .ok c := by
  obtain ⟨s, q, k, hs, ht, ht'⟩ := h
  rw [hs.unique denotes_one, mul_one] at ht'
  have hsame := Extend.periodic_add_int ht ht'
  have hoffset := (Extend.denotesUnit_periodic ht).denotes
  refine ⟨hsame, by rw [hsame]; exact hoffset.beq hoffset, fun r index hrow => ?_⟩
  obtain ⟨a, b, -, -, hsample⟩ := sample_eq hrow t .periodic
  exact ⟨_, hsample, (r.sample_congr index hsame).trans hsample⟩

/-- A quarter below zero and three quarters in the second period. -/
theorem sample_quarter_below :
    PeriodsApart 1.0 (-0.25) 1.75 ∧ ∃ added c,
      (twoColumns.edits []).add blackToWhite.stops = .ok (0, added) ∧
      added.sample 0 (-0.25) .periodic = .ok c ∧ added.sample 0 1.75 .periodic = .ok c := by
  have hbelow : Denotes (-0.25) (-1 / 4) := by
    have h := (denotes_of_view (x := 0.25) (2 ^ 23) (-25) ⟨by decide, rfl⟩).neg
    norm_num at h ⊢
    exact h
  have hlater : Denotes 1.75 (-1 / 4 + (2 : ℤ) * 1) := by
    have h := denotes_of_view (x := 1.75) (7 * 2 ^ 21) (-23) ⟨by decide, rfl⟩
    norm_num at h ⊢
    exact h
  have hperiods : PeriodsApart 1.0 (-0.25) 1.75 := ⟨1, -1 / 4, 2, denotes_one, hbelow, hlater⟩
  obtain ⟨-, hadd⟩ := add_twoColumns blackToWhite.stops (by decide +kernel)
  obtain ⟨-, -, hsample⟩ := sample_periodic hperiods
  obtain ⟨c, hc, hc'⟩ := hsample { twoColumns with rows := #[twoColumns.bake blackToWhite.stops] } 0
    Nat.one_pos
  exact ⟨hperiods, _, c, hadd, hc, hc'⟩

end GradientRamps

end TileCompositor
