import TileCompositor.Proofs.Scalar.Remainder
import TileCompositor.Proofs.Shading.Gaps
/-!
# Tiles without gaps

Tiles that repeat at their own size are meant to leave no gap, so that a
gradient on them discards nothing. A position is discarded nevertheless if it
is so close below a multiple of the period that adding the period to its
remainder gives the period itself: such a position is absorbed.

Results:
* `offsetAt_isSome_iff`: a position has an offset unless it is absorbed on one axis.
* `outcome_isSome_iff`: so has a fragment of an accepted instance its colour.
* `gapless_discards_iff_absorbed`: exactly the fragments at absorbed positions are discarded.
-/
namespace TileCompositor
open Binary32

/-- A period added to the negative remainder of `a` makes it the period. -/
def Absorbed (a period : Float32) : Prop :=
  Scalar.truncMod a period < 0.0 ∧ (Scalar.truncMod a period + period == period) = true

instance (a period : Float32) : Decidable (Absorbed a period) := inferInstanceAs (Decidable (_ ∧ _))

/-- A size that tiles can have: finite and positive on both axes. -/
structure TileSize (size : Vec2) : Prop where
  finite : size.isFinite = true
  x_pos : 0.0 < size.x
  y_pos : 0.0 < size.y

/-! ## One axis -/

theorem absorbed_iff {a b : Float32} {p q : ℚ} (ha : Denotes a p) (hb : Denotes b q) (hq : 0 < q) :
    Absorbed a b ↔ Scalar.remainder p q < 0 ∧ nearest (Scalar.remainder p q + q) = q := by
  have hr := Scalar.denotes_truncMod ha hb hq.ne'
  have habs := abs_lt.mp (Scalar.abs_remainder_lt p hq.ne')
  rw [abs_of_pos hq] at habs
  rw [Absorbed, hr.lt_iff denotes_zero]
  refine and_congr_right fun hneg => ?_
  have hsum := hr.add hb (by
    rw [abs_of_nonneg (nearest_nonneg (by linarith))]
    exact (nearest_le hb.representable (by linarith)).trans_lt ((le_abs_self q).trans_lt hb.abs_lt))
  exact hsum.beq_iff hb

/-- A remainder reaches the period only if it is absorbed. -/
theorem le_euclidMod_iff_absorbed {a b : Float32} (ha : a.isFinite = true) (hb : b.isFinite = true)
    (hpos : 0.0 < b) :
    b ≤ Scalar.euclidMod a b ↔ Absorbed a b := by
  obtain ⟨p, dp⟩ := isFinite_iff.mp ha
  obtain ⟨q, dq⟩ := isFinite_iff.mp hb
  have hq : 0 < q := (denotes_zero.lt_iff dq).mp hpos
  rw [absorbed_iff dp dq hq, Scalar.le_euclidMod_iff dp dq hq]

/-- What is not negative is not absorbed. -/
theorem not_absorbed_of_nonneg {a b : Float32} (ha : a.isFinite = true) (hb : b.isFinite = true)
    (hpos : 0.0 < b) (h : 0.0 ≤ a) : ¬ Absorbed a b := by
  obtain ⟨p, dp⟩ := isFinite_iff.mp ha
  obtain ⟨q, dq⟩ := isFinite_iff.mp hb
  have hq : 0 < q := (denotes_zero.lt_iff dq).mp hpos
  rw [absorbed_iff dp dq hq]
  exact fun hneg => hneg.1.not_ge (Scalar.remainder_nonneg ((denotes_zero.le_iff dp).mp h) hq)

/-! ## Positions -/

theorem Vec2.isFinite_iff {p : Vec2} :
    p.isFinite = true ↔ p.x.isFinite = true ∧ p.y.isFinite = true := by
  rw [isFinite, Bool.and_eq_true]

/-- On tiles without gaps a position has an offset unless it is absorbed. -/
theorem GradientField.offsetAt_isSome_iff {g : GradientField} {size p : Vec2}
    (htile : g.tile = .single size) (hsize : TileSize size) (hp : p.isFinite = true) :
    (g.offsetAt p).isSome = true ↔ ¬ Absorbed p.x size.x ∧ ¬ Absorbed p.y size.y := by
  obtain ⟨hsx, hsy⟩ := Vec2.isFinite_iff.mp hsize.finite
  obtain ⟨hpx, hpy⟩ := Vec2.isFinite_iff.mp hp
  rw [← le_euclidMod_iff_absorbed hpx hsx hsize.x_pos,
    ← le_euclidMod_iff_absorbed hpy hsy hsize.y_pos, Option.isSome_iff_ne_none, Ne,
    GradientField.offsetAt_eq_none_iff, htile, not_or]
  exact Iff.rfl

/-! ## Fragments -/

namespace DrawSettings

section Gapless
variable {s : DrawSettings} {ramps : GradientRamps} {dithering : Bool}
  (hpass : s.pass = .gradient ramps dithering) {records : List InstanceRecord} {t : Target}
include hpass

/-- A fragment has a colour unless its position is absorbed. -/
theorem outcome_isSome_iff {i : ResolvedInstance} (hi : i ∈ s.instances records) {size : Vec2}
    (htile : i.flat.tile = .single size) (hsize : TileSize size) {f : Fragment}
    (hf : f.varyings.localPosition.isFinite = true) :
    (s.outcome i.flat f).isSome = true ↔
      ¬ Absorbed f.varyings.localPosition.x size.x ∧
        ¬ Absorbed f.varyings.localPosition.y size.y := by
  obtain ⟨record, -, hacc⟩ := mem_instances.mp hi
  have hval := (accept_eq_ok_iff.mp hacc).2
  rw [hpass] at hval
  have hgap := Pass.shade_gradient_eq_none_iff
    (f := { coord := f.coord, varyings := f.varyings, flat := i.flat }) hval
  rw [← GradientField.offsetAt_isSome_iff (g := GradientField.ofFlat i.flat) htile hsize hf, outcome,
    hpass, Option.isSome_iff_ne_none, Option.isSome_iff_ne_none, Ne, hgap]

/-- On tiles without gaps a draw discards the fragments whose position is
absorbed, and no others. -/
theorem discarded_eq_zero_iff
    (htile : ∀ i ∈ s.instances records, ∃ size, i.flat.tile = .single size ∧ TileSize size)
    (hlocal : ∀ i ∈ s.instances records, ∀ f ∈ i.fragments s.frame t.width t.height,
      f.varyings.localPosition.isFinite = true) :
    (s.draw t records).stats.discarded = 0 ↔
      ∀ i ∈ s.instances records, ∀ f ∈ i.fragments s.frame t.width t.height,
        ¬ Absorbed f.varyings.localPosition.x i.flat.tile.size.x ∧
          ¬ Absorbed f.varyings.localPosition.y i.flat.tile.size.y := by
  have hsome (o : Option Color) : ¬ o.isNone = true ↔ o.isSome = true := by cases o <;> simp
  rw [(stats_draw s t records).2, List.countP_eq_zero]
  simp only [hsome, List.mem_flatMap, fragmentOutcomes, List.mem_map]
  constructor
  · intro h i hi f hf
    obtain ⟨size, hsingle, hsize⟩ := htile i hi
    have hcolor := h (s.outcome i.flat f) ⟨i, hi, f, hf, rfl⟩
    rw [hsingle]
    exact (outcome_isSome_iff hpass hi hsingle hsize (hlocal i hi f hf)).mp hcolor
  · rintro h _ ⟨i, hi, f, hf, rfl⟩
    obtain ⟨size, hsingle, hsize⟩ := htile i hi
    have habs := h i hi f hf
    rw [hsingle] at habs
    exact (outcome_isSome_iff hpass hi hsingle hsize (hlocal i hi f hf)).mpr habs

end Gapless

end DrawSettings

/-- On tiles without gaps, a finite position has no offset exactly if it is
absorbed on one axis, and a draw discards nothing exactly if no fragment of an
accepted instance is at such a position. -/
theorem gapless_discards_iff_absorbed {s : DrawSettings} {ramps : GradientRamps} {dithering : Bool}
    {records : List InstanceRecord} {t : Target} (hpass : s.pass = .gradient ramps dithering)
    (htile : ∀ i ∈ s.instances records, ∃ size, i.flat.tile = .single size ∧ TileSize size)
    (hlocal : ∀ i ∈ s.instances records, ∀ f ∈ i.fragments s.frame t.width t.height,
      f.varyings.localPosition.isFinite = true) :
    (∀ (g : GradientField) (size p : Vec2), g.tile = .single size → TileSize size →
      p.isFinite = true →
      ((g.offsetAt p).isSome = true ↔ ¬ Absorbed p.x size.x ∧ ¬ Absorbed p.y size.y)) ∧
    ((s.draw t records).stats.discarded = 0 ↔
      ∀ i ∈ s.instances records, ∀ f ∈ i.fragments s.frame t.width t.height,
        ¬ Absorbed f.varyings.localPosition.x i.flat.tile.size.x ∧
          ¬ Absorbed f.varyings.localPosition.y i.flat.tile.size.y) := by
  constructor
  · intro g size p hg hsize hp
    exact GradientField.offsetAt_isSome_iff hg hsize hp
  · exact DrawSettings.discarded_eq_zero_iff hpass htile hlocal

/-- A gradient pass over one pixel, with one tile as large as numbers go. -/
def wideTile : DrawSettings :=
  { DrawSettings.onePixel with
    pass := .gradient
      { width := 2, two_le_width := le_rfl, maxRows := 1, rows := #[Vector.replicate 2 Color.white] }
      false }

/-- A gradient over one pixel, described from right to left. -/
def mirroredGradient : InstanceRecord :=
  linearGradientInstance (Rect.ofXYWH 1.0 0.0 (-1.0) 1.0) ⟨⟨0.0, 0.0⟩, ⟨1.0, 0.0⟩, [], .clamp⟩ 0 {}

/-- The position at its only centre is absorbed, and so its fragment is discarded. -/
theorem mirroredGradient_discarded :
    (∀ i ∈ wideTile.instances [mirroredGradient],
      i.flat.tile = .single (Vec2.splat Scalar.greatest)) ∧
      (wideTile.draw (Target.new 1 1) [mirroredGradient]).stats.discarded ≠ 0 := by
  have htile : ∀ i ∈ wideTile.instances [mirroredGradient],
      i.flat.tile = .single (Vec2.splat Scalar.greatest) := by
    decide +kernel
  have hsize : TileSize (Vec2.splat Scalar.greatest) :=
    ⟨by decide +kernel, by decide +kernel, by decide +kernel⟩
  refine ⟨htile, ?_⟩
  have h := gapless_discards_iff_absorbed (s := wideTile) (t := Target.new 1 1) rfl
    (fun i hi => ⟨_, htile i hi, hsize⟩) (by decide +kernel)
  rw [Ne, h.2]
  decide +kernel

/-- A position just below zero has no offset on tiles of size one. -/
theorem offsetAt_below_zero :
    (GradientField.mk (.single ⟨1.0, 1.0⟩) {} {} 0 .clamp).offsetAt ⟨-1e-10, 0.5⟩ = none := by
  decide +kernel

end TileCompositor
