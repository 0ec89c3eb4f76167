import TileCompositor.Proofs.Binary32.Order
import TileCompositor.Proofs.Geometry.Containment
/-!
# Rounded clip regions

A radius is brought between zero and half the shorter side before it is used,
and the two bounds have to be in order. Nothing checks that, and the sides may be
infinite or NaN. But corners are only looked at for points that the normalised
rectangle contains. A side that contains a point has a lower edge below its upper
edge, so what is measured between the edges before is not NaN, and not negative.

Within such bounds a radius that is not positive rounds nothing and one beyond
the limit rounds as the limit does. Rounding only takes points away.

Results:
* `Side.nonneg_extent_of_contains`, `Rect.nonneg_radiusLimit`: the bounds are in order.
* `containsChecked_eq`: no radius is clamped between bounds that are not.
* `contains_eq_all`: every corner is looked at, whether there are radii or not.
* `rounding_only_removes`: all of it, and radii that may be replaced by others.
-/
namespace TileCompositor
open Binary32

/-! ## The extent between the edges -/

namespace Side
variable {s : Side} {t : Float32}

/-- An extent that is not NaN is not negative. -/
theorem nonneg_extent (hnan : (s.high - s.low).isNaN = false) : 0.0 ≤ s.high - s.low := by
  have horigin : s.origin.isNaN = false := by
    by_contra h
    rw [Bool.not_eq_false] at h
    -- a far end that is NaN leaves the origin as the lower edge
    have hlow : s.low = s.origin := minNum_of_isNaN _ (isNaN_add_left s.size h)
    rw [isNaN_sub_right s.high (hlow ▸ h)] at hnan
    cases hnan
  exact nonneg_sub (minNum_le_maxNum s.far horigin) hnan

/-- If the normalised side contains anything, its extent is not negative. -/
theorem nonneg_extent_of_contains (h : s.normalized.Contains t) : 0.0 ≤ s.high - s.low := by
  refine nonneg_extent (Bool.eq_false_iff.mpr fun hnan => ?_)
  -- otherwise both edges of the normalised side are the lower edge
  have hfar : s.normalized.far.isNaN = true := isNaN_add_right s.low hnan
  obtain ⟨hlow, hhigh⟩ := h
  rw [low, minNum_of_isNaN _ hfar] at hlow
  rw [high, maxNum_of_isNaN _ hfar] at hhigh
  exact not_lt_of_le hlow hhigh

end Side

namespace Rect

/-- Half the shorter side of a normalised rectangle that contains a point is not negative. -/
theorem nonneg_radiusLimit {r : Rect} {p : Vec2} (h : r.normalized.contains p = true) :
    0.0 ≤ ClipRect.radiusLimit r.normalized.size := by
  rw [contains_iff, normalized_horizontal, normalized_vertical] at h
  have hsize : r.normalized.size =
      ⟨r.horizontal.high - r.horizontal.low, r.vertical.high - r.vertical.low⟩ := by
    rw [normalized, min_eq, max_eq]
    rfl
  rw [hsize]
  exact nonneg_half_mul
    (minNum_nonneg (Side.nonneg_extent_of_contains h.1) (Side.nonneg_extent_of_contains h.2))

end Rect

/-! ## Corners -/

/-- `r'` is `r`, or zero if `r` is not positive, or the limit if `r` is beyond it. -/
def TrimsRadius (limit r r' : Float32) : Prop := r' = r ∨ r ≤ 0.0 ∧ r' = 0.0 ∨ limit < r ∧ r' = limit

/-- The same radii, some of them trimmed. -/
structure CornerRadii.Trims (limit : Float32) (radii radii' : CornerRadii) : Prop where
  topLeft : TrimsRadius limit radii.topLeft radii'.topLeft
  topRight : TrimsRadius limit radii.topRight radii'.topRight
  bottomRight : TrimsRadius limit radii.bottomRight radii'.bottomRight
  bottomLeft : TrimsRadius limit radii.bottomLeft radii'.bottomLeft

namespace ClipRect
variable {limit r r' : Float32} {inward point lo hi p : Vec2}

/-- A radius that is not positive cuts nothing away. -/
theorem cuts_of_nonpos (hlimit : 0.0 ≤ limit) (hr : r ≤ 0.0) (inward point p : Vec2) :
    (Arc.mk r inward point).cuts limit p = false := by
  have hradius : Scalar.clamp r 0.0 limit ≤ 0.0 := clamp_le_lo hlimit hr
  simp only [Arc.cuts, hradius, decide_true, Bool.not_true, Bool.false_and]

theorem cuts_of_trims (hlimit : 0.0 ≤ limit) (h : TrimsRadius limit r r') (inward point p : Vec2) :
    (Arc.mk r' inward point).cuts limit p = (Arc.mk r inward point).cuts limit p := by
  rcases h with rfl | ⟨hr, hr'⟩ | ⟨hr, hr'⟩
  · rfl
  · have hzero : r' ≤ 0.0 := by
      rw [hr', ranks_zero.le_iff ranks_zero]
    rw [cuts_of_nonpos hlimit hr, cuts_of_nonpos hlimit hzero]
  · simp only [Arc.cuts, hr', clamp_of_hi_lt hlimit hr, clamp_hi hlimit]

/-- Without radii no corner cuts anything away. -/
theorem all_not_cuts_of_isZero {radii : CornerRadii} (hlimit : 0.0 ≤ limit) (h : radii.isZero = true) :
    ((arcs radii lo hi).all fun arc => !arc.cuts limit p) = true := by
  simp only [CornerRadii.isZero, Bool.and_eq_true, decide_eq_true_eq] at h
  obtain ⟨⟨⟨htl, htr⟩, hbr⟩, hbl⟩ := h
  simp only [arcs, List.all_cons, List.all_nil, cuts_of_nonpos hlimit htl, cuts_of_nonpos hlimit htr,
    cuts_of_nonpos hlimit hbr, cuts_of_nonpos hlimit hbl, Bool.not_false, Bool.and_true]

theorem all_not_cuts_of_trims {radii radii' : CornerRadii} (hlimit : 0.0 ≤ limit)
    (h : radii.Trims limit radii') :
    ((arcs radii' lo hi).all fun arc => !arc.cuts limit p) =
      (arcs radii lo hi).all fun arc => !arc.cuts limit p := by
  simp only [arcs, List.all_cons, List.all_nil, cuts_of_trims hlimit h.topLeft,
    cuts_of_trims hlimit h.topRight, cuts_of_trims hlimit h.bottomRight,
    cuts_of_trims hlimit h.bottomLeft]

/-! ## Containment -/

/-- Whether the corner cuts `p` away, if the bounds of its radius are in order.
mirrors `contains`, tables/entries:52-61 -/
def Arc.cutsChecked (c : Arc) (limit : Float32) (p : Vec2) : Option Bool :=
  if 0.0 ≤ limit then some (c.cuts limit p) else none

/-- Containment that gives no answer once a radius is to be clamped between bounds that are
out of order.
mirrors `contains`, tables/entries:32-64 -/
def containsChecked (c : ClipRect) (p : Vec2) : Option Bool :=
  let r := c.rect.normalized
  if !r.contains p then some false
  else if c.radii.isZero then some true
  else (arcs c.radii r.min r.max).allM fun arc => (arc.cutsChecked (radiusLimit r.size) p).map (!·)

theorem containsChecked_eq (c : ClipRect) (p : Vec2) : c.containsChecked p = some (c.contains p) := by
  simp only [containsChecked, contains]
  cases hin : c.rect.normalized.contains p with
  | false => rfl
  | true =>
    have hlimit := Rect.nonneg_radiusLimit hin
    simp only [Arc.cutsChecked, if_pos hlimit, Option.map_some]
    cases c.radii.isZero with
    | true => rfl
    | false => exact List.allM_pure

/-- A region with radii that are zero is tested at its corners like any other. -/
theorem contains_eq_all (c : ClipRect) (p : Vec2) :
    c.contains p = (c.rect.normalized.contains p &&
      (arcs c.radii c.rect.normalized.min c.rect.normalized.max).all fun arc =>
        !arc.cuts (radiusLimit c.rect.normalized.size) p) := by
  simp only [contains]
  cases hin : c.rect.normalized.contains p with
  | false => rw [Bool.false_and, Bool.false_and]
  | true =>
    cases hzero : c.radii.isZero with
    | true => rw [all_not_cuts_of_isZero (Rect.nonneg_radiusLimit hin) hzero, Bool.true_or]
    | false => rw [Bool.false_or]

theorem contains_of_trims {rect : Rect} {radii radii' : CornerRadii}
    (h : radii.Trims (radiusLimit rect.normalized.size) radii') (p : Vec2) :
    contains ⟨rect, radii'⟩ p = contains ⟨rect, radii⟩ p := by
  rw [contains_eq_all, contains_eq_all]
  cases hin : rect.normalized.contains p with
  | false => rw [Bool.false_and, Bool.false_and]
  | true => rw [all_not_cuts_of_trims (Rect.nonneg_radiusLimit hin) h]

/-- The rounded test answers for every region and every point, infinite and NaN ones included: where
corners are looked at, the limit of the radii is a value that is not negative. It only takes points
away from the square region, and it does not tell radii that are not positive from zero and radii
beyond the limit from the limit. -/
theorem rounding_only_removes (rect : Rect) (radii : CornerRadii) (p : Vec2) :
    let limit := radiusLimit rect.normalized.size
    (rect.normalized.contains p = true → limit.isNaN = false ∧ 0.0 ≤ limit) ∧
      containsChecked ⟨rect, radii⟩ p = some (contains ⟨rect, radii⟩ p) ∧
      (contains ⟨rect, radii⟩ p = true → (square rect).contains p = true) ∧
      ∀ radii', radii.Trims limit radii' → contains ⟨rect, radii'⟩ p = contains ⟨rect, radii⟩ p := by
  intro limit
  refine ⟨fun hin => ?_, containsChecked_eq _ p, fun h => ?_, fun radii' h => contains_of_trims h p⟩
  · have hlimit := Rect.nonneg_radiusLimit hin
    obtain ⟨-, q, -, hrank, -⟩ := ranks_of_le hlimit
    exact ⟨isNaN_of_ranks hrank, hlimit⟩
  · rw [square_contains]
    exact (Bool.and_eq_true_iff.mp h).1

/-- A region whose far end is beyond all numbers, with radii of every kind. -/
def unboundedRegion : ClipRect :=
  ⟨Rect.ofXYWH (-3e38) 0.0 Scalar.infinity 2.0, ⟨Scalar.nan, -1.0, Scalar.infinity, 0.25⟩⟩

/-- The limit of its radii is one, and it is the same region when they are trimmed. -/
theorem unboundedRegion_trimmed :
    let limit := radiusLimit unboundedRegion.rect.normalized.size
    let trimmed : CornerRadii := ⟨Scalar.nan, 0.0, 1.0, 0.25⟩
    unboundedRegion.rect.normalized.contains ⟨0.0, 1.0⟩ = true ∧ 0.0 ≤ limit ∧
      unboundedRegion.radii.Trims limit trimmed ∧
      contains ⟨unboundedRegion.rect, trimmed⟩ ⟨0.0, 1.0⟩ = contains unboundedRegion ⟨0.0, 1.0⟩ := by
  intro limit trimmed
  have hin : unboundedRegion.rect.normalized.contains ⟨0.0, 1.0⟩ = true := by decide +kernel
  have htrims : unboundedRegion.radii.Trims limit trimmed :=
    ⟨.inl rfl, .inr (.inl (by decide)), .inr (.inr (by decide +kernel)), .inl rfl⟩
  have h := rounding_only_removes unboundedRegion.rect unboundedRegion.radii ⟨0.0, 1.0⟩
  exact ⟨hin, (h.1 hin).2, htrims, h.2.2.2 trimmed htrims⟩

end ClipRect

end TileCompositor
